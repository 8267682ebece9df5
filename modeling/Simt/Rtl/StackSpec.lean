import Simt.Lib.Mealy
import Simt.Rtl.StackList

/-
`simt_stack` against the bounded list it stands for.

The list is popped first and pushed to afterwards.  The push guard of the code
reads the fill count before the edge, so a push that comes with a pop is lost
when the stack is full, and this is the only difference.
-/

namespace Simt
namespace Rtl
namespace SimtStack

variable {lanes pcW depth : Nat}

/-- The module with its reset port, from the state a reset leaves. -/
def machine (lanes pcW depth : Nat) :
    Mealy (SimtStack lanes pcW depth) (Bool × StackReq lanes pcW) (Bool × Bool) where
  init := reset
  next s i := s.posedge i.1 i.2
  out s _ := (s.empty, s.full)

/-- `count`, `empty` and `full` describe the entries. -/
structure Describes (s : SimtStack lanes pcW depth) : Prop where
  count : s.count.toNat = s.entries.length
  empty : s.empty = true ↔ s.entries = []
  full : s.full = true ↔ s.entries.length = depth

/-- What an edge on request `r` has to do: the bounded list pops and then pushes,
the pop outputs take the entry removed, and the flags describe the list. -/
structure PopThenPush (s : SimtStack lanes pcW depth) (r : StackReq lanes pcW) : Prop where
  contents : (s.posedge false r).entries =
    popThenPush depth r.pop r.push (r.pushMask, r.pushPc) s.entries
  popped : ((s.posedge false r).popMask, (s.posedge false r).popPc) =
    if r.pop then s.entries.headD (s.popMask, s.popPc) else (s.popMask, s.popPc)
  status : s.Describes ∧ (s.posedge false r).Describes
  replaced : r.push = true → r.pop = true → s.entries ≠ [] →
    (s.posedge false r).count = s.count ∧
      (s.posedge false r).entries = (r.pushMask, r.pushPc) :: s.entries.tail

/-- A push and a pop in one cycle of a full stack. -/
def LosesPush (s : SimtStack lanes pcW depth) (r : StackReq lanes pcW) : Prop :=
  r.push = true ∧ r.pop = true ∧ s.full = true

theorem describes {s : SimtStack lanes pcW depth} (hs : s.count.toNat ≤ depth) : s.Describes where
  count := (length_entries hs).symm
  empty := empty_iff_entries hs
  full := by rw [full_iff, length_entries hs]

theorem count_eq_zero {s : SimtStack lanes pcW depth} {r : StackReq lanes pcW}
    (hp : s.doPop r = false) (hpop : r.pop = true) : s.count.toNat = 0 := by
  by_contra hne
  rw [doPop_iff.mpr ⟨hpop, hne⟩] at hp
  exact absurd hp (by decide)

section Edge

variable {s : SimtStack lanes pcW depth} (hs : s.count.toNat ≤ depth) (r : StackReq lanes pcW)

include hs

theorem posedge_count_le (rst : Bool) : (s.posedge rst r).count.toNat ≤ depth := by
  cases rst with
  | true => exact Nat.zero_le depth
  | false =>
    cases hp : s.doPop r with
    | true => exact (posedge_pop hs hp).1
    | false => exact (posedge_no_pop hs hp).1

theorem posedge_popped :
    ((s.posedge false r).popMask, (s.posedge false r).popPc) =
      if r.pop then s.entries.headD (s.popMask, s.popPc) else (s.popMask, s.popPc) := by
  cases hp : s.doPop r with
  | true =>
    obtain ⟨hpop, hne⟩ := doPop_iff.mp hp
    rw [(posedge_pop hs hp).2.1, if_pos hpop, entries_eq_cons hne hs, List.headD_cons]
  | false =>
    rw [(posedge_no_pop hs hp).2.1]
    by_cases hpop : r.pop = true
    · rw [if_pos hpop, (entries_eq_nil hs).mpr (count_eq_zero hp hpop), List.headD_nil]
    · rw [if_neg hpop]

theorem posedge_entries :
    (s.posedge false r).entries =
      s.accepted r ++ if r.pop then s.entries.tail else s.entries := by
  cases hp : s.doPop r with
  | true =>
    obtain ⟨hpop, hne⟩ := doPop_iff.mp hp
    rw [(posedge_pop hs hp).2.2, if_pos hpop, entries_eq_cons hne hs, List.tail_cons]
  | false =>
    rw [(posedge_no_pop hs hp).2.2]
    by_cases hpop : r.pop = true
    · rw [if_pos hpop, (entries_eq_nil hs).mpr (count_eq_zero hp hpop), List.tail_nil]
    · rw [if_neg hpop]

theorem posedge_contents (hok : ¬ s.LosesPush r) :
    (s.posedge false r).entries =
      popThenPush depth r.pop r.push (r.pushMask, r.pushPc) s.entries := by
  have hlen := length_entries hs
  have hroom : s.doPush r = true ↔
      r.push = true ∧ (if r.pop then s.entries.tail else s.entries).length < depth := by
    rw [doPush_iff]
    refine and_congr_right fun hpush => ?_
    by_cases hpop : r.pop = true
    · have hfull : s.count.toNat ≠ depth := fun h => hok ⟨hpush, hpop, full_iff.mpr h⟩
      rw [if_pos hpop, List.length_tail]
      omega
    · rw [if_neg hpop]
      omega
  rw [posedge_entries hs, popThenPush, accepted]
  by_cases hpush : s.doPush r = true
  · rw [if_pos hpush, if_pos (hroom.mp hpush)]
    rfl
  · rw [if_neg hpush, if_neg (mt hroom.mpr hpush)]
    rfl

/-- A lost push leaves the stack one entry short. -/
theorem posedge_loses (hd : 1 ≤ depth) (h : s.LosesPush r) :
    (s.posedge false r).entries.length + 1 =
      (popThenPush depth r.pop r.push (r.pushMask, r.pushPc) s.entries).length := by
  obtain ⟨hpush, hpop, hfull⟩ := h
  have hlen := length_entries hs
  have hcount := full_iff.mp hfull
  have hno : ¬ s.doPush r = true := fun h => (doPush_iff.mp h).2 hcount
  rw [posedge_entries hs, accepted, if_neg hno, if_pos hpop, hpush, hpop,
    popThenPush_both (by omega) (List.ne_nil_of_length_pos (by omega))]
  rfl

/-- An edge does what it has to do exactly when no push is lost. -/
theorem posedge_popThenPush (hd : 1 ≤ depth) : s.PopThenPush r ↔ ¬ s.LosesPush r := by
  constructor
  · intro h hloses
    have hshort := posedge_loses hs r hd hloses
    rw [← h.contents] at hshort
    omega
  · intro hok
    have hle := posedge_count_le hs r false
    refine ⟨posedge_contents hs r hok, posedge_popped hs r, ⟨describes hs, describes hle⟩, ?_⟩
    intro hpush hpop hne
    have hent := posedge_contents hs r hok
    rw [hpush, hpop, popThenPush_both (by rw [length_entries hs]; exact hs) hne] at hent
    refine ⟨?_, hent⟩
    have hpos := List.length_pos_iff.mpr hne
    rw [← BitVec.toNat_inj, ← length_entries hs, ← length_entries hle, hent, List.length_cons,
      List.length_tail]
    omega

end Edge

theorem stateAt_count_le (u : Nat → Bool × StackReq lanes pcW) (t : Nat) :
    ((machine lanes pcW depth).stateAt u t).count.toNat ≤ depth :=
  Mealy.stateAt_invariant (M := machine lanes pcW depth) (P := fun s => s.count.toNat ≤ depth)
    (Q := fun _ => True) (Nat.zero_le depth)
    (fun _ i hs _ => posedge_count_le hs i.2 i.1) (fun _ => trivial) t

/-- In any run the stack does what it has to do in every cycle exactly when no
cycle pushes and pops on a full stack. -/
theorem pop_then_push_iff (hd : 1 ≤ depth) (u : Nat → Bool × StackReq lanes pcW) (n : Nat) :
    (∀ t, t < n → (u t).1 = false →
        ((machine lanes pcW depth).stateAt u t).PopThenPush (u t).2) ↔
      ∀ t, t < n → (u t).1 = false →
        ¬ ((machine lanes pcW depth).stateAt u t).LosesPush (u t).2 :=
  forall₃_congr fun t _ _ => posedge_popThenPush (stateAt_count_le u t) _ hd

/-- Two pushes and then both at once, with room for two. -/
theorem pop_then_push_replaces :
    ((machine 8 16 3).stateAt (fun t => (false, ⟨true, 1, 2, t == 2⟩)) 2).PopThenPush
      ⟨true, 1, 2, true⟩ :=
  (@pop_then_push_iff 8 16 3 (by decide) (fun t => (false, ⟨true, 1, 2, t == 2⟩)) 3).mpr
    (by
      intro t _ _ h
      obtain ⟨-, hpop, hfull⟩ := h
      obtain rfl : t = 2 := by simpa using hpop
      exact absurd hfull (by decide)) 2 (by decide) rfl

/-- A stack of one entry is full after one push, and the push that comes with a
pop is lost. -/
theorem full_stack_loses_push :
    ¬ ((machine 2 16 1).stateAt (fun t => (false, ⟨true, 1, 0, t == 1⟩)) 1).PopThenPush
      ⟨true, 1, 0, true⟩ := by
  intro h
  exact absurd h.contents (by decide)

end SimtStack
end Rtl
end Simt
