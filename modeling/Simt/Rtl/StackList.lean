import Simt.Lib.LiveStack
import Simt.Rtl.SimtStack

/-
The stack of `simt_stack` as a list.

`entries` reads the valid entries off the two memories, top first.  An edge puts
the accepted push on top of the entries the accepted pop leaves, and the guards
of both look at the fill count before the edge.
-/

namespace Simt
namespace Rtl
namespace SimtStack

variable {lanes pcW depth : Nat}

/-- The entries below `count`, top first. -/
def entries (s : SimtStack lanes pcW depth) : List (BitVec lanes × BitVec pcW) :=
  (live s.maskMem s.count.toNat).zip (live s.pcMem s.count.toNat)

/-! ## The fill count -/

theorem depth_lt (depth : Nat) : depth < 2 ^ Nat.clog 2 (depth + 1) :=
  Nat.lt_of_lt_of_le (Nat.lt_succ_self depth) (Nat.le_pow_clog (by decide) _)

theorem toNat_depthBits (depth : Nat) : (depthBits depth).toNat = depth := by
  rw [depthBits, BitVec.toNat_ofNat, Nat.mod_eq_of_lt (depth_lt depth)]

theorem empty_iff {s : SimtStack lanes pcW depth} : s.empty = true ↔ s.count.toNat = 0 := by
  simp [empty, BitVec.toNat_eq]

theorem full_iff {s : SimtStack lanes pcW depth} : s.full = true ↔ s.count.toNat = depth := by
  simp [full, BitVec.toNat_eq, toNat_depthBits]

theorem doPop_iff {s : SimtStack lanes pcW depth} {r : StackReq lanes pcW} :
    s.doPop r = true ↔ r.pop = true ∧ s.count.toNat ≠ 0 := by
  simp [doPop, BitVec.toNat_eq]

theorem doPush_iff {s : SimtStack lanes pcW depth} {r : StackReq lanes pcW} :
    s.doPush r = true ↔ r.push = true ∧ s.count.toNat ≠ depth := by
  simp [doPush, BitVec.toNat_eq, toNat_depthBits]

theorem toNat_one (h : 1 ≤ depth) : (1 : BitVec (Nat.clog 2 (depth + 1))).toNat = 1 :=
  BitVec.toNat_one (Nat.clog_pos (by decide) (Nat.succ_le_succ h))

theorem toNat_count_add_one {s : SimtStack lanes pcW depth} (h : s.count.toNat < depth) :
    (s.count + 1).toNat = s.count.toNat + 1 := by
  have hd := depth_lt depth
  rw [BitVec.toNat_add, toNat_one (by omega), Nat.mod_eq_of_lt (by omega)]

theorem toNat_count_sub_one {s : SimtStack lanes pcW depth} (h : s.count.toNat ≠ 0)
    (hs : s.count.toNat ≤ depth) : (s.count - 1).toNat = s.count.toNat - 1 := by
  have hone : (1 : BitVec (Nat.clog 2 (depth + 1))).toNat = 1 := toNat_one (by omega)
  rw [BitVec.toNat_sub_of_le, hone]
  rw [BitVec.le_def, hone]
  omega

/-! ## Reading the entries -/

theorem length_entries {s : SimtStack lanes pcW depth} (hs : s.count.toNat ≤ depth) :
    s.entries.length = s.count.toNat := by
  rw [entries, List.length_zip, length_live hs, length_live hs, Nat.min_self]

theorem entries_eq_nil {s : SimtStack lanes pcW depth} (hs : s.count.toNat ≤ depth) :
    s.entries = [] ↔ s.count.toNat = 0 := by
  rw [← List.length_eq_zero_iff, length_entries hs]

theorem empty_iff_entries {s : SimtStack lanes pcW depth} (hs : s.count.toNat ≤ depth) :
    s.empty = true ↔ s.entries = [] := by
  rw [empty_iff, entries_eq_nil hs]

theorem reset_entries : (reset : SimtStack lanes pcW depth).entries = [] := by
  simp [entries, reset]

/-- The entries below the top, for a non-empty stack. -/
def below (s : SimtStack lanes pcW depth) : List (BitVec lanes × BitVec pcW) :=
  (live s.maskMem (s.count.toNat - 1)).zip (live s.pcMem (s.count.toNat - 1))

/-- The top entry, for a non-empty stack. -/
def top (s : SimtStack lanes pcW depth) : BitVec lanes × BitVec pcW :=
  (s.maskMem.getD (s.count.toNat - 1) 0, s.pcMem.getD (s.count.toNat - 1) 0)

theorem entries_eq_cons {s : SimtStack lanes pcW depth} (h : s.count.toNat ≠ 0)
    (hs : s.count.toNat ≤ depth) : s.entries = s.top :: s.below := by
  have hc : s.count.toNat = (s.count.toNat - 1) + 1 := by omega
  rw [entries, hc, live_succ _ (by omega) 0, live_succ _ (by omega) 0, List.zip_cons_cons]
  rfl

/-! ## One clock edge -/

section Edge

variable {s : SimtStack lanes pcW depth} (hs : s.count.toNat ≤ depth) {r : StackReq lanes pcW}

/-- The entry an accepted push adds. -/
def accepted (s : SimtStack lanes pcW depth) (r : StackReq lanes pcW) :
    List (BitVec lanes × BitVec pcW) :=
  if s.doPush r then [(r.pushMask, r.pushPc)] else []

include hs

theorem posedge_pop (hp : s.doPop r = true) :
    (s.posedge false r).count.toNat ≤ depth ∧
      ((s.posedge false r).popMask, (s.posedge false r).popPc) = s.top ∧
      (s.posedge false r).entries = s.accepted r ++ s.below := by
  have hne := (doPop_iff.mp hp).2
  have hsub := toNat_count_sub_one hne hs
  cases hq : s.doPush r with
  | true =>
    have hk : s.count.toNat = (s.count.toNat - 1) + 1 := by omega
    simp only [posedge, hp, hq, accepted, if_true, Bool.false_eq_true, if_false]
    refine ⟨hs, rfl, ?_⟩
    rw [entries]
    show (live (s.maskMem.setIfInBounds _ _) s.count.toNat).zip
      (live (s.pcMem.setIfInBounds _ _) s.count.toNat) = _
    rw [hk, Nat.add_sub_cancel, live_set_succ _ (by omega), live_set_succ _ (by omega)]
    rfl
  | false =>
    simp only [posedge, hp, hq, accepted, if_true, Bool.false_eq_true, if_false]
    refine ⟨?_, rfl, ?_⟩
    · rw [hsub]
      omega
    · rw [entries]
      show (live s.maskMem (s.count - 1).toNat).zip (live s.pcMem (s.count - 1).toNat) = _
      rw [hsub]
      rfl

theorem posedge_no_pop (hp : s.doPop r = false) :
    (s.posedge false r).count.toNat ≤ depth ∧
      ((s.posedge false r).popMask, (s.posedge false r).popPc) = (s.popMask, s.popPc) ∧
      (s.posedge false r).entries = s.accepted r ++ s.entries := by
  cases hq : s.doPush r with
  | true =>
    have hlt : s.count.toNat < depth := Nat.lt_of_le_of_ne hs (doPush_iff.mp hq).2
    have hadd := toNat_count_add_one hlt
    simp only [posedge, hp, hq, accepted, if_true, Bool.false_eq_true, if_false]
    refine ⟨?_, trivial, ?_⟩
    · rw [hadd]
      omega
    · rw [entries]
      show (live (s.maskMem.setIfInBounds _ _) (s.count + 1).toNat).zip
        (live (s.pcMem.setIfInBounds _ _) (s.count + 1).toNat) = _
      rw [hadd, live_set_succ _ hlt, live_set_succ _ hlt]
      rfl
  | false =>
    simp only [posedge, hp, hq, accepted, Bool.false_eq_true, if_false]
    exact ⟨hs, trivial, rfl⟩

end Edge

end SimtStack
end Rtl
end Simt
