import Simt.Sm.TickSpec

/-
RAW safety of the SM, and the runs in which the one busy bit of a register
stands for all its writes in flight.
-/

namespace Simt
namespace Cpp
namespace MiniSM

variable {cfg : Config}

/-- A write of `r` by `w` is in the pipeline. -/
def InPipe (sm : MiniSM cfg) (w r : Nat) : Prop := ∃ i, sm.stage i = some ⟨w, r, true⟩

/-- A register is busy whenever a write of it is in flight. -/
def Covered (sm : MiniSM cfg) : Prop := ∀ w r, sm.InPipe w r → sm.isBusy w r = true

/-- The instruction issued by this tick reads no register that its warp still has
a write of in flight. -/
def RawSafe (sm : MiniSM cfg) (is : WarpInstrs cfg) : Prop :=
  ∀ w m, sm.issuedWarp is = some w → is.getD w none = some m →
    ∀ i e, sm.stage i = some e → e.warpId = w → e.hasDst = true → e.dst ≠ m.src0 ∧ e.dst ≠ m.src1

/-- `w` is the first eligible warp from the pointer on and presents a write of
`r`. -/
def NextWrites (sm : MiniSM cfg) (is : WarpInstrs cfg) (w r : Nat) : Prop :=
  w < cfg.warps ∧ sm.eligible is w = true ∧
    (∀ v, v < cfg.warps → sm.eligible is v = true →
      RoundRobin.dist cfg.warps sm.scheduler.rrPtr w ≤
        RoundRobin.dist cfg.warps sm.scheduler.rrPtr v) ∧
    ∃ m, is.getD w none = some m ∧ m.dst = r ∧ m.hasDst = true

/-- A write of a register leaves the pipeline while a younger write of it stays
there, and the next instruction does not write it again. -/
def ClearsEarly (sm : MiniSM cfg) (is : WarpInstrs cfg) : Prop :=
  ∃ w r, sm.stage 0 = some ⟨w, r, true⟩ ∧ (∃ i, 0 < i ∧ sm.stage i = some ⟨w, r, true⟩) ∧
    ¬ sm.NextWrites is w r

section Step

variable {sm : MiniSM cfg} {is : WarpInstrs cfg}

theorem InPipe.range (hv : sm.Valid) {w r : Nat} (h : sm.InPipe w r) :
    w < cfg.warps ∧ r < cfg.regs := by
  obtain ⟨i, hi⟩ := h
  exact hv.entries i _ hi

theorem fresh_covered : (fresh cfg).Covered := by
  intro w r h
  obtain ⟨i, hi⟩ := h
  rw [stage_fresh] at hi
  exact absurd hi (by simp)

theorem issuedEntry_eq_iff_nextWrites (hv : sm.Valid) {w r : Nat} :
    sm.issuedEntry is = some ⟨w, r, true⟩ ↔ sm.NextWrites is w r := by
  rw [issuedEntry_eq_some hv, issuedWarp_eq hv, RoundRobin.first_eq_some_iff hv.rrPtr, NextWrites,
    and_assoc, and_assoc]

/-- A tick that clears no bit early keeps every write in flight covered. -/
theorem tick_covered (hv : sm.Valid) (hi : InRange is) (hc : sm.Covered)
    (hok : ¬ sm.ClearsEarly is) : (sm.tick is).2.Covered := by
  intro w r hpipe
  obtain ⟨hw, hr⟩ := hpipe.range (tick_valid hv hi)
  obtain ⟨i, hstage⟩ := hpipe
  rw [tick_isBusy hv hi hw hr]
  rw [tick_stage (lt_of_stage hstage)] at hstage
  by_cases hlast : i + 1 = cfg.execLatency
  · rw [if_pos hlast] at hstage
    exact Or.inl hstage
  · rw [if_neg hlast] at hstage
    by_cases hout : sm.stage 0 = some ⟨w, r, true⟩
    · left
      by_contra hno
      exact hok ⟨w, r, hout, ⟨i + 1, Nat.succ_pos i, hstage⟩,
        mt (issuedEntry_eq_iff_nextWrites hv).mpr hno⟩
    · exact Or.inr ⟨hc w r ⟨i + 1, hstage⟩, hout⟩

/-- A tick that clears a bit early leaves a write in flight uncovered. -/
theorem not_covered_of_clearsEarly (hv : sm.Valid) (hi : InRange is) (hbad : sm.ClearsEarly is) :
    ¬ (sm.tick is).2.Covered := by
  obtain ⟨w, r, hout, ⟨i, hpos, hstage⟩, hno⟩ := hbad
  obtain ⟨hw, hr⟩ := hv.entries 0 _ hout
  have hlt := lt_of_stage hstage
  intro hc
  have hpipe : (sm.tick is).2.InPipe w r := by
    refine ⟨i - 1, ?_⟩
    rw [tick_stage (by omega), if_neg (by omega), show i - 1 + 1 = i by omega]
    exact hstage
  rcases (tick_isBusy hv hi hw hr).mp (hc w r hpipe) with h | h
  · exact hno ((issuedEntry_eq_iff_nextWrites hv).mp h)
  · exact h.2 hout

theorem rawSafe_of_covered (hv : sm.Valid) (hc : sm.Covered) (is : WarpInstrs cfg) :
    sm.RawSafe is := by
  intro w m hw hm i e he hew hd
  obtain ⟨hinstr, h0, h1⟩ := issuedInstr_spec hv hw
  have heq : issuedInstr is w = m := Option.some.inj (hinstr.symm.trans hm)
  rw [heq] at h0 h1
  have hbusy : sm.isBusy w e.dst = true := by
    refine hc w e.dst ⟨i, ?_⟩
    rw [he, ← hew, ← hd]
  constructor
  · intro hsrc
    rw [hsrc, h0] at hbusy
    exact absurd hbusy Bool.false_ne_true
  · intro hsrc
    rw [hsrc, h1] at hbusy
    exact absurd hbusy Bool.false_ne_true

/-- The input on which only `w` presents an instruction, a read of `r`. -/
def reads (cfg : Config) (w r : Nat) : WarpInstrs cfg :=
  (Vector.replicate _ none).setIfInBounds w (some { src0 := r, src1 := r })

theorem reads_getD {w : Nat} (hw : w < cfg.warps) (r v : Nat) :
    (reads cfg w r).getD v none = if v = w then some { src0 := r, src1 := r } else none := by
  rw [reads]
  by_cases h : v = w
  · rw [if_pos h, h, getD_setIfInBounds_self _ hw]
  · rw [if_neg h, getD_setIfInBounds_ne _ (Ne.symm h), getD_replicate]

/-- Covering all writes is the same as RAW safety whatever is presented next. -/
theorem covered_iff_rawSafe (hv : sm.Valid) :
    sm.Covered ↔ ∀ is, InRange is → sm.RawSafe is := by
  constructor
  · exact fun hc is _ => rawSafe_of_covered hv hc is
  · intro hsafe w r hpipe
    obtain ⟨hw, hr⟩ := hpipe.range hv
    obtain ⟨i, hi⟩ := hpipe
    by_contra hfree
    rw [Bool.not_eq_true] at hfree
    have hrange : InRange (reads cfg w r) := by
      intro v m hm
      rw [reads_getD hw] at hm
      split at hm
      · obtain rfl := Option.some.inj hm
        exact ⟨hr, hr, Nat.zero_lt_of_lt hr⟩
      · exact absurd hm (by simp)
    -- With the bit clear the read of `r` is the only eligible instruction.
    have hel : sm.eligible (reads cfg w r) w = true := by
      simp [eligible, reads_getD hw, hfree]
    have hissue : sm.issuedWarp (reads cfg w r) = some w := by
      rw [issuedWarp_eq hv]
      obtain ⟨v, hfirst⟩ := RoundRobin.exists_first hv.rrPtr hw hel
      have hsome := eligible_isSome (RoundRobin.first_eq_some hv.rrPtr hfirst).2.1
      rw [reads_getD hw] at hsome
      split at hsome
      next heq => rw [hfirst, heq]
      next => exact absurd hsome Bool.false_ne_true
    have hget : (reads cfg w r).getD w none = some { src0 := r, src1 := r } := by
      rw [reads_getD hw, if_pos rfl]
    exact (hsafe _ hrange w _ hissue hget i _ hi rfl rfl).1 rfl

end Step

/-- Along a run every write in flight is covered, and every tick is RAW safe
whatever it is given, exactly as long as no tick clears a bit early. -/
theorem raw_safe_iff (hW : 1 ≤ cfg.warps) {u : Nat → WarpInstrs cfg} (hu : ∀ t, InRange (u t))
    (n : Nat) :
    ((∀ t, t ≤ n → ((machine cfg).stateAt u t).Covered) ↔
        ∀ t, t < n → ¬ ((machine cfg).stateAt u t).ClearsEarly (u t)) ∧
      ((∀ t, t ≤ n → ∀ is, InRange is → ((machine cfg).stateAt u t).RawSafe is) ↔
        ∀ t, t < n → ¬ ((machine cfg).stateAt u t).ClearsEarly (u t)) := by
  have hvalid : ∀ t, ((machine cfg).stateAt u t).Valid :=
    Mealy.stateAt_invariant (fresh_valid hW) (fun _ _ => tick_valid) hu
  have hcovered : (∀ t, t ≤ n → ((machine cfg).stateAt u t).Covered) ↔
      ∀ t, t < n → ¬ ((machine cfg).stateAt u t).ClearsEarly (u t) := by
    refine Mealy.forall_stateAt_iff (P := Covered) (Q := fun sm => sm.Valid ∧ sm.Covered)
      (A := InRange) (G := fun sm is => ¬ sm.ClearsEarly is) ⟨fresh_valid hW, fresh_covered⟩ ?_
      (fun _ hs => hs.2) ?_ hu n
    · intro sm is hs hi hok
      exact ⟨tick_valid hs.1 hi, tick_covered hs.1 hi hs.2 hok⟩
    · intro sm is hs hi hbad
      exact not_covered_of_clearsEarly hs.1 hi (not_not.mp hbad)
  refine ⟨hcovered, ?_⟩
  rw [← hcovered]
  constructor
  · exact fun h t ht => (covered_iff_rawSafe (hvalid t)).mpr (h t ht)
  · exact fun h t ht => (covered_iff_rawSafe (hvalid t)).mp (h t ht)

/-- Three writes of `r0` in a row and then a read of it.  The first writeback
finds a younger write in the pipeline, and the third write keeps the bit set. -/
def writesInARow (t : Nat) : WarpInstrs { warps := 1, regs := 2, execLatency := 2 } :=
  #v[some (if t < 3 then { src0 := 1, src1 := 1, dst := 0, hasDst := true }
    else { src0 := 0, src1 := 0 })]

theorem raw_safe_writes_in_a_row :
    ((machine _).stateAt writesInARow 3).RawSafe (writesInARow 3) := by
  have hrange : ∀ t, InRange (writesInARow t) := fun t => inRange_one_warp fun m hm => by
    obtain rfl := Option.some.inj hm
    split_ifs <;> decide
  refine (raw_safe_iff (by decide) hrange 3).2.mpr (fun t ht hbad => ?_) 3 (Nat.le_refl 3) _
    (hrange 3)
  obtain ⟨w, r, hold, -, hnot⟩ := hbad
  obtain rfl | rfl | rfl : t = 0 ∨ t = 1 ∨ t = 2 := by omega
  · exact absurd ((stage_fresh 0).symm.trans hold) (by simp)
  · have hnone : ((machine _).stateAt writesInARow 1).stage 0 = none := by decide +kernel
    exact absurd (hnone.symm.trans hold) (by simp)
  · have hfirst : ((machine _).stateAt writesInARow 2).stage 0 = some ⟨0, 0, true⟩ := by
      decide +kernel
    obtain ⟨rfl, rfl, -⟩ := WbResult.mk.inj (Option.some.inj (hfirst.symm.trans hold))
    refine hnot ⟨by decide, by decide +kernel, fun v hv _ => ?_, _, rfl, rfl, rfl⟩
    obtain rfl : v = 0 := Nat.lt_one_iff.mp hv
    exact Nat.le_refl _

/-- Two writes of `r0` and then a read of it: the first writeback clears the bit
and the read issues while the second write is in the pipeline. -/
def overlappingWrites (t : Nat) : WarpInstrs { warps := 1, regs := 2, execLatency := 2 } :=
  #v[if t < 2 then some { src0 := 1, src1 := 1, dst := 0, hasDst := true }
    else if t = 3 then some { src0 := 0, src1 := 0 } else none]

theorem overlapping_writes_unsafe :
    (∀ t, InRange (overlappingWrites t)) ∧
      ¬ ((machine _).stateAt overlappingWrites 3).RawSafe (overlappingWrites 3) ∧
      ¬ ((machine _).stateAt overlappingWrites 3).Covered := by
  refine ⟨?_, ?_, ?_⟩
  · intro t w m hm
    by_cases hw : w < 1
    · obtain rfl : w = 0 := by omega
      rw [getD_of_lt _ (by decide)] at hm
      simp only [overlappingWrites, Vector.getElem_mk, List.getElem_toArray,
        List.getElem_cons_zero] at hm
      split_ifs at hm <;> obtain rfl := Option.some.inj hm <;> decide
    · rw [getD_of_ge _ (Nat.le_of_not_lt hw)] at hm
      exact absurd hm (by simp)
  · intro hsafe
    exact (hsafe 0 { src0 := 0, src1 := 0 } (by decide +kernel) (by decide +kernel) 0 ⟨0, 0, true⟩
      (by decide +kernel) rfl
      rfl).1 rfl
  · intro hc
    exact absurd (hc 0 0 ⟨0, by decide +kernel⟩) (by decide +kernel)

end MiniSM
end Cpp
end Simt
