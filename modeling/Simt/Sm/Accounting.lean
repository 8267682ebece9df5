import Simt.Sm.History

/-
What the SM puts out and what it counts: the writebacks are the issues delayed
by the latency, and the counters account for every tick and every instruction.
-/

namespace Simt
namespace Cpp
namespace MiniSM

variable {cfg : Config}

/-! ## Writebacks -/

theorem exists_instr_of_issuedWarp {sm : MiniSM cfg} {is : WarpInstrs cfg} {w : Nat}
    (h : sm.issuedWarp is = some w) : ∃ m, is.getD w none = some m := by
  obtain ⟨i, -, hi⟩ := List.exists_of_findSome?_eq_some h
  dsimp only at hi
  split_ifs at hi with hsel
  obtain rfl := Option.some.inj hi
  rw [Bool.and_eq_true, Bool.and_eq_true, hasInstr_getD] at hsel
  exact Option.isSome_iff_exists.mp hsel.1.1

theorem entryAt_eq_some {u : Nat → WarpInstrs cfg} {t : Nat} {e : WbResult} :
    entryAt u t = some e ↔ ((machine cfg).outAt u t).issuedWarp = some e.warpId ∧
      ∃ m, (u t).getD e.warpId none = some m ∧ m.dst = e.dst ∧ m.hasDst = e.hasDst := by
  rw [entryAt, issuedEntry, Option.map_eq_some_iff, outAt_issuedWarp]
  constructor
  · intro h
    obtain ⟨w, hw, rfl⟩ := h
    obtain ⟨m, hm⟩ := exists_instr_of_issuedWarp hw
    refine ⟨hw, m, hm, ?_⟩
    rw [issuedInstr, hm]
    exact ⟨rfl, rfl⟩
  · intro h
    obtain ⟨hw, m, hm, hd, hh⟩ := h
    refine ⟨e.warpId, hw, ?_⟩
    rw [issuedInstr, hm, Option.getD_some, hd, hh]

theorem isSome_entryAt (u : Nat → WarpInstrs cfg) (t : Nat) :
    (entryAt u t).isSome = ((machine cfg).outAt u t).issuedWarp.isSome := Option.isSome_map

theorem filterMap_writeback (hL : 1 ≤ cfg.execLatency) (u : Nat → WarpInstrs cfg) (n : Nat) :
    (List.range n).filterMap (fun t => ((machine cfg).outAt u t).writeback) =
      (List.range (n - cfg.execLatency)).filterMap (entryAt u) := by
  induction n with
  | zero => simp
  | succ n ih =>
    rw [List.range_succ, List.filterMap_append, ih]
    simp only [List.filterMap_cons, List.filterMap_nil, writeback_outAt hL]
    by_cases hle : cfg.execLatency ≤ n
    · rw [Nat.succ_sub hle, List.range_succ, List.filterMap_append, if_pos hle]
      rfl
    · rw [if_neg hle, List.append_nil, Nat.sub_eq_zero_of_le (by omega : n + 1 ≤ _),
        Nat.sub_eq_zero_of_le (by omega : n ≤ _)]

/-- The writebacks are the issues delayed by the latency: a tick writes back what
was issued that many ticks ago, and in any number of ticks the writebacks are the
issues in their order, but for those of the last ticks. -/
theorem writebacks_delay_issues (hL : 1 ≤ cfg.execLatency) (u : Nat → WarpInstrs cfg) :
    (∀ t, ((machine cfg).outAt u t).writeback.isSome = true ↔
        cfg.execLatency ≤ t ∧
          ((machine cfg).outAt u (t - cfg.execLatency)).issuedWarp.isSome = true) ∧
      (∀ t e, ((machine cfg).outAt u t).writeback = some e ↔
        cfg.execLatency ≤ t ∧
          ((machine cfg).outAt u (t - cfg.execLatency)).issuedWarp = some e.warpId ∧
          ∃ m, (u (t - cfg.execLatency)).getD e.warpId none = some m ∧ m.dst = e.dst ∧
            m.hasDst = e.hasDst) ∧
      ∀ n, (List.range n).filterMap (fun t => ((machine cfg).outAt u t).writeback) =
        (List.range (n - cfg.execLatency)).filterMap (entryAt u) := by
  refine ⟨fun t => ?_, fun t e => ?_, filterMap_writeback hL u⟩
  · rw [writeback_outAt hL, ← isSome_entryAt]
    by_cases hle : cfg.execLatency ≤ t <;> simp [hle]
  · rw [writeback_outAt hL, ← entryAt_eq_some]
    by_cases hle : cfg.execLatency ≤ t <;> simp [hle]

/-- The first issue of the workload comes out after four ticks. -/
theorem writebacks_delay_issues_first :
    ((machine {}).outAt (fun _ => rawHeavy {}) 4).writeback = some ⟨0, 0, true⟩ :=
  ((@writebacks_delay_issues {} (by decide) (fun _ => rawHeavy {})).2.1 4 ⟨0, 0, true⟩).mpr
    ⟨by decide, by decide +kernel, _, rawHeavy_getD (by decide), rfl, rfl⟩

/-! ## Counters -/

/-- Some instruction presented has both sources free. -/
def SomeFree (sm : MiniSM cfg) (is : WarpInstrs cfg) : Prop :=
  ∃ w m, is.getD w none = some m ∧ sm.isBusy w m.src0 = false ∧ sm.isBusy w m.src1 = false

/-- Some instruction is presented, and each one presented has a busy source. -/
def AllBlocked (sm : MiniSM cfg) (is : WarpInstrs cfg) : Prop :=
  (∃ w m, is.getD w none = some m) ∧
    ∀ w m, is.getD w none = some m → sm.isBusy w m.src0 = true ∨ sm.isBusy w m.src1 = true

/-- No warp presents an instruction. -/
def NoWork (is : WarpInstrs cfg) : Prop := ∀ w, is.getD w none = none

/-- A tick adds one to a counter exactly when `P`, and nothing otherwise. -/
def Adds (P : Prop) (before after : BitVec 64) : Prop :=
  (P → after.toNat = before.toNat + 1) ∧ (¬ P → after = before)

/-- The occupied stages of the pipeline. -/
def occupied (sm : MiniSM cfg) : Nat :=
  (List.range cfg.execLatency).countP fun i => (sm.stage i).isSome

section Tick

variable {sm : MiniSM cfg} {is : WarpInstrs cfg}

theorem lt_of_presents {w : Nat} {m : InstrMeta} (h : is.getD w none = some m) :
    w < cfg.warps := by
  by_contra hge
  rw [getD_of_ge _ (Nat.le_of_not_lt hge)] at h
  exact absurd h (by simp)

/-- The scan of the scheduler is complete. -/
theorem isSome_issuedWarp (hv : sm.Valid) : (sm.issuedWarp is).isSome = true ↔ SomeFree sm is := by
  constructor
  · intro h
    obtain ⟨w, hw⟩ := Option.isSome_iff_exists.mp h
    obtain ⟨hm, h0, h1⟩ := issuedInstr_spec hv hw
    exact ⟨w, _, hm, h0, h1⟩
  · intro h
    obtain ⟨w, m, hm, h0, h1⟩ := h
    by_contra hnone
    rw [Bool.not_eq_true, Option.isSome_eq_false_iff, Option.isNone_iff_eq_none,
      issuedWarp_eq hv] at hnone
    have hel := (RoundRobin.first_eq_none hv.rrPtr).mp hnone w (lt_of_presents hm)
    simp [eligible, hm, h0, h1] at hel

theorem any_held_iff :
    (List.range cfg.warps).any (sm.held is) = true ↔
      ∃ w m, is.getD w none = some m ∧ (sm.isBusy w m.src0 = true ∨ sm.isBusy w m.src1 = true) := by
  rw [List.any_eq_true]
  constructor
  · intro h
    obtain ⟨w, -, hheld⟩ := h
    unfold held at hheld
    cases hm : is.getD w none with
    | none =>
      rw [hm] at hheld
      exact absurd hheld Bool.false_ne_true
    | some m =>
      rw [hm] at hheld
      exact ⟨w, m, hm, by simpa using hheld⟩
  · intro h
    obtain ⟨w, m, hm, hbusy⟩ := h
    refine ⟨w, List.mem_range.mpr (lt_of_presents hm), ?_⟩
    simpa [held, hm] using hbusy

theorem data_stall_iff (hv : sm.Valid) :
    ((sm.issuedWarp is).isNone && (List.range cfg.warps).any (sm.held is)) = true ↔
      AllBlocked sm is := by
  rw [Bool.and_eq_true, any_held_iff, ← Option.not_isSome, Bool.not_eq_true', ← Bool.not_eq_true,
    isSome_issuedWarp hv]
  constructor
  · intro h
    obtain ⟨hfree, w, m, hm, -⟩ := h
    refine ⟨⟨w, m, hm⟩, fun w m hm => ?_⟩
    by_contra hno
    rw [not_or, Bool.not_eq_true, Bool.not_eq_true] at hno
    exact hfree ⟨w, m, hm, hno.1, hno.2⟩
  · intro h
    obtain ⟨⟨w, m, hm⟩, hall⟩ := h
    refine ⟨?_, w, m, hm, hall w m hm⟩
    intro hx
    obtain ⟨w, m, hm, h0, h1⟩ := hx
    have := hall w m hm
    rw [h0, h1] at this
    exact this.elim Bool.false_ne_true Bool.false_ne_true

/-- A cycle without an issue and without a data stall has no work: the case the
code does not count is never met. -/
theorem no_warp_stall_iff (hv : sm.Valid) :
    ((sm.issuedWarp is).isNone && !(List.range cfg.warps).any (sm.held is)) = true ↔
      NoWork is := by
  rw [Bool.and_eq_true, Bool.not_eq_true', ← Bool.not_eq_true, any_held_iff, ← Option.not_isSome,
    Bool.not_eq_true', ← Bool.not_eq_true, isSome_issuedWarp hv]
  constructor
  · intro h w
    obtain ⟨hfree, hheld⟩ := h
    by_contra hne
    obtain ⟨m, hm⟩ := Option.ne_none_iff_exists'.mp hne
    by_cases hbusy : sm.isBusy w m.src0 = true ∨ sm.isBusy w m.src1 = true
    · exact hheld ⟨w, m, hm, hbusy⟩
    · rw [not_or, Bool.not_eq_true, Bool.not_eq_true] at hbusy
      exact hfree ⟨w, m, hm, hbusy.1, hbusy.2⟩
  · intro h
    constructor
    · intro hx
      obtain ⟨w, m, hm, -⟩ := hx
      exact absurd ((h w).symm.trans hm) (by simp)
    · intro hx
      obtain ⟨w, m, hm, -⟩ := hx
      exact absurd ((h w).symm.trans hm) (by simp)

end Tick

section Run

variable {u : Nat → WarpInstrs cfg}

theorem counters_succ (hW : 1 ≤ cfg.warps) (hu : ∀ t, InRange (u t)) (t : Nat) :
    ((machine cfg).stateAt u (t + 1)).counters =
      { ((machine cfg).stateAt u t).counters with
        cycles := ((machine cfg).stateAt u t).counters.cycles + 1
        instructions := tally ((machine cfg).outAt u t).issuedWarp.isSome
          ((machine cfg).stateAt u t).counters.instructions
        stallData := tally (((machine cfg).outAt u t).issuedWarp.isNone &&
          (List.range cfg.warps).any (((machine cfg).stateAt u t).held (u t)))
          ((machine cfg).stateAt u t).counters.stallData
        stallNoWarp := tally (((machine cfg).outAt u t).issuedWarp.isNone &&
          !(List.range cfg.warps).any (((machine cfg).stateAt u t).held (u t)))
          ((machine cfg).stateAt u t).counters.stallNoWarp
        cyclesIssuing := tally ((machine cfg).outAt u t).issuedWarp.isSome
          ((machine cfg).stateAt u t).counters.cyclesIssuing
        wbCount := tally (((machine cfg).stateAt u t).stage 0).isSome
          ((machine cfg).stateAt u t).counters.wbCount } :=
  tick_counters (valid_stateAt hW hu t)

/-- What was issued has been written back or is in the pipeline. -/
theorem countP_issued (hL : 1 ≤ cfg.execLatency) (n : Nat) :
    (List.range n).countP (fun t => ((machine cfg).outAt u t).issuedWarp.isSome) =
      (List.range n).countP (fun t => (((machine cfg).stateAt u t).stage 0).isSome) +
        occupied ((machine cfg).stateAt u n) := by
  simp only [← isSome_entryAt]
  refine countP_input_eq (fun t i => ((machine cfg).stateAt u t).stage i) Option.isSome
    (d := none) hL rfl ?_ ?_ ?_ n
  · exact fun i _ => stage_fresh i
  · intro t i hlt
    exact (tick_stage (Nat.lt_of_succ_lt hlt)).trans (if_neg (Nat.ne_of_lt hlt))
  · intro t i hlast
    exact (tick_stage (by omega)).trans (if_pos hlast)

/-- Every counter holds the number of ticks it counts. -/
theorem counters_eq (hW : 1 ≤ cfg.warps) (hu : ∀ t, InRange (u t)) (n : Nat) :
    let issued := fun t => ((machine cfg).outAt u t).issuedWarp
    let held := fun t => (List.range cfg.warps).any (((machine cfg).stateAt u t).held (u t))
    ((machine cfg).stateAt u n).counters =
      { cycles := BitVec.ofNat 64 n
        instructions := BitVec.ofNat 64 ((List.range n).countP fun t => (issued t).isSome)
        stallData := BitVec.ofNat 64 ((List.range n).countP fun t => (issued t).isNone && held t)
        stallNoWarp :=
          BitVec.ofNat 64 ((List.range n).countP fun t => (issued t).isNone && !held t)
        cyclesIssuing := BitVec.ofNat 64 ((List.range n).countP fun t => (issued t).isSome)
        wbCount := BitVec.ofNat 64 ((List.range n).countP fun t =>
          (((machine cfg).stateAt u t).stage 0).isSome) } := by
  intro issued held
  induction n with
  | zero => rfl
  | succ n ih =>
    rw [counters_succ hW hu, ih, BitVec.ofNat_add]
    simp only [countP_range_succ, tally_ofNat]
    rfl

theorem toNat_counters (hW : 1 ≤ cfg.warps) (hu : ∀ t, InRange (u t)) {n : Nat}
    (hn : n < 2 ^ 64) :
    let sm := fun t => (machine cfg).stateAt u t
    let issued := fun t => ((machine cfg).outAt u t).issuedWarp
    let held := fun t => (List.range cfg.warps).any ((sm t).held (u t))
    let c := (sm n).counters
    c.cycles.toNat = n ∧
      c.cyclesIssuing.toNat = (List.range n).countP (fun t => (issued t).isSome) ∧
      c.stallData.toNat = (List.range n).countP (fun t => (issued t).isNone && held t) ∧
      c.stallNoWarp.toNat = (List.range n).countP (fun t => (issued t).isNone && !held t) ∧
      c.wbCount.toNat = (List.range n).countP fun t => ((sm t).stage 0).isSome := by
  intro sm issued held c
  have hval : ∀ {k : Nat}, k ≤ n → (BitVec.ofNat 64 k).toNat = k := by
    intro k hk
    rw [BitVec.toNat_ofNat, Nat.mod_eq_of_lt (Nat.lt_of_le_of_lt hk hn)]
  have hc : c = _ := counters_eq hW hu n
  rw [hc]
  exact ⟨hval (Nat.le_refl n), hval (countP_range_le _ _), hval (countP_range_le _ _),
    hval (countP_range_le _ _), hval (countP_range_le _ _)⟩

/-- What was written back by tick `n` was issued `exec_latency` ticks before. -/
theorem countP_writeback (hL : 1 ≤ cfg.execLatency) (n : Nat) :
    (List.range n).countP (fun t => (((machine cfg).stateAt u t).stage 0).isSome) =
      (List.range (n - cfg.execLatency)).countP fun t =>
        ((machine cfg).outAt u t).issuedWarp.isSome := by
  have hlen := congrArg List.length (filterMap_writeback hL u n)
  rw [List.length_filterMap_eq_countP, List.length_filterMap_eq_countP] at hlen
  simp only [isSome_entryAt] at hlen
  exact hlen

theorem adds_tally {P : Prop} {b : Bool} {c : BitVec 64} (hb : b = true ↔ P)
    (hlt : c.toNat + 1 < 2 ^ 64) : Adds P c (tally b c) := by
  constructor
  · intro hP
    rw [hb.mpr hP, toNat_tally_true hlt]
  · intro hP
    rw [Bool.eq_false_of_not_eq_true (mt hb.mp hP)]
    rfl

/-- A tick counts as an issue, as a data stall or as having no work by what the
warps present. -/
theorem counters_add (hW : 1 ≤ cfg.warps) (hu : ∀ t, InRange (u t)) {t : Nat}
    (ht : t + 1 < 2 ^ 64) :
    let sm := fun t => (machine cfg).stateAt u t
    Adds (SomeFree (sm t) (u t)) (sm t).counters.cyclesIssuing
        (sm (t + 1)).counters.cyclesIssuing ∧
      Adds (AllBlocked (sm t) (u t)) (sm t).counters.stallData (sm (t + 1)).counters.stallData ∧
      Adds (NoWork (u t)) (sm t).counters.stallNoWarp (sm (t + 1)).counters.stallNoWarp := by
  intro sm
  have hv := valid_stateAt hW hu t
  obtain ⟨-, hissuing, hdata, hnoWarp, -⟩ := toNat_counters (u := u) hW hu (Nat.lt_of_succ_lt ht)
  have hroom : ∀ (b : Nat → Bool) (x : Nat), x = (List.range t).countP b → x + 1 < 2 ^ 64 := by
    intro b x hx
    have hle := countP_range_le b t
    omega
  refine ⟨?_, ?_, ?_⟩
  · rw [counters_succ hW hu t]
    exact adds_tally (isSome_issuedWarp hv) (hroom _ _ hissuing)
  · rw [counters_succ hW hu t]
    exact adds_tally (data_stall_iff hv) (hroom _ _ hdata)
  · rw [counters_succ hW hu t]
    exact adds_tally (no_warp_stall_iff hv) (hroom _ _ hnoWarp)

/-- Two counters are never touched, and two go together. -/
theorem counters_fixed (hW : 1 ≤ cfg.warps) (hu : ∀ t, InRange (u t)) (n : Nat) :
    let c := ((machine cfg).stateAt u n).counters
    c.instructions = c.cyclesIssuing ∧ c.stallStructural = 0 ∧ c.stallMemory = 0 := by
  rw [counters_eq hW hu n]
  exact ⟨rfl, rfl, rfl⟩

/-- The counters account for every tick and every instruction: a tick issues, is
held by a busy source or has no work, and an instruction is written back or in
the pipeline. -/
theorem counters_account (hW : 1 ≤ cfg.warps) (hL : 1 ≤ cfg.execLatency)
    (hu : ∀ t, InRange (u t)) {n : Nat} (hn : n < 2 ^ 64) :
    let sm := fun t => (machine cfg).stateAt u t
    let c := (sm n).counters
    (c.cycles.toNat = n ∧ n = c.cyclesIssuing.toNat + c.stallData.toNat + c.stallNoWarp.toNat ∧
        c.instructions = c.cyclesIssuing ∧ c.stallStructural = 0 ∧ c.stallMemory = 0) ∧
      (∀ t, t < n →
        Adds (SomeFree (sm t) (u t)) (sm t).counters.cyclesIssuing
            (sm (t + 1)).counters.cyclesIssuing ∧
          Adds (AllBlocked (sm t) (u t)) (sm t).counters.stallData
            (sm (t + 1)).counters.stallData ∧
          Adds (NoWork (u t)) (sm t).counters.stallNoWarp (sm (t + 1)).counters.stallNoWarp) ∧
      c.instructions.toNat - c.wbCount.toNat = occupied (sm n) ∧
        c.wbCount.toNat ≤ c.instructions.toNat ∧ occupied (sm n) ≤ cfg.execLatency := by
  intro sm c
  obtain ⟨hcycles, hissuing, hdata, hnoWarp, hwb⟩ := toNat_counters (u := u) hW hu hn
  obtain ⟨hinstr, hstructural, hmemory⟩ := counters_fixed hW hu n
  have hbalance := countP_issued (u := u) hL n
  refine ⟨⟨hcycles, ?_, hinstr, hstructural, hmemory⟩,
    fun t ht => counters_add hW hu (Nat.lt_of_le_of_lt ht hn), ?_, ?_, countP_range_le _ _⟩
  · rw [hissuing, hdata, hnoWarp]
    simp only [← Option.not_isSome]
    exact (countP_range_split _ _ n).symm
  · rw [hinstr, hissuing, hwb, hbalance, Nat.add_sub_cancel_left]
  · rw [hinstr, hissuing, hwb, hbalance]
    exact Nat.le_add_right _ _

/-- Eight ticks of the workload, all accounted for. -/
theorem counters_account_eight :
    8 = ((machine {}).stateAt (fun _ => rawHeavy {}) 8).counters.cyclesIssuing.toNat +
      ((machine {}).stateAt (fun _ => rawHeavy {}) 8).counters.stallData.toNat +
      ((machine {}).stateAt (fun _ => rawHeavy {}) 8).counters.stallNoWarp.toNat :=
  (@counters_account {} (fun _ => rawHeavy {}) (by decide) (by decide)
    (fun _ => rawHeavy_inRange (by decide)) 8 (by decide)).1.2.1

end Run

end MiniSM
end Cpp
end Simt
