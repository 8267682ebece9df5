import Simt.Lib.Delay
import Simt.Sm.History
import Simt.Sm.RawSafety

/-
What the scoreboard is for: the values that instructions read.

`dataAt` puts a register file beside the SM.  An instruction reads its sources
when it is issued, its result moves through the pipeline with it, and the
writeback puts the result into the register file.  `sequential` runs the issued
instructions one after the other, each to its end.  The two read the same values
for every meaning of the instructions exactly when every tick is RAW safe.
-/

namespace Simt
namespace Cpp
namespace MiniSM

variable {cfg : Config} {V : Type}

/-- The registers of the warps, by warp and register. -/
abbrev RegFile (V : Type) := Nat → Nat → V

/-- The sources of the instruction that this tick issues. -/
def operands (sm : MiniSM cfg) (is : WarpInstrs cfg) (R : RegFile V) : Option (V × V) :=
  (sm.issuedWarp is).bind fun w => (is.getD w none).map fun m => (R w m.src0, R w m.src1)

/-- The register file and the results in the pipeline, stage 0 the oldest. -/
structure DataPath (V : Type) where
  regs : RegFile V
  pipe : Nat → Option V

/-- One tick of the data path, with `g` the meaning of the issued instruction. -/
def DataPath.next (d : DataPath V) (sm : MiniSM cfg) (is : WarpInstrs cfg) (g : V → V → V) :
    DataPath V where
  regs w r := if sm.stage 0 = some ⟨w, r, true⟩ then (d.pipe 0).getD (d.regs w r) else d.regs w r
  pipe i :=
    if i + 1 = cfg.execLatency then (sm.operands is d.regs).map fun x => g x.1 x.2
    else d.pipe (i + 1)

section Run

variable (u : Nat → WarpInstrs cfg) (f : Nat → V → V → V) (init : RegFile V)

/-- The data path before tick `t`, with `f t` the meaning of what tick `t`
issues. -/
def dataAt : Nat → DataPath V
  | 0 => ⟨init, fun _ => none⟩
  | t + 1 => (dataAt t).next ((machine cfg).stateAt u t) (u t) (f t)

/-- The registers after the instructions issued before tick `t`, one at a
time. -/
def sequential : Nat → RegFile V
  | 0 => init
  | t + 1 => fun w r =>
    if entryAt u t = some ⟨w, r, true⟩ then
      ((((machine cfg).stateAt u t).operands (u t) (sequential t)).map fun x =>
        f t x.1 x.2).getD (sequential t w r)
    else sequential t w r

/-- The values read by the instruction issued in tick `t` are those of the
sequential run. -/
def ReadsInOrder (t : Nat) : Prop :=
  ((machine cfg).stateAt u t).operands (u t) (dataAt u f init t).regs =
    ((machine cfg).stateAt u t).operands (u t) (sequential u f init t)

/-- Tick `t` issues a write of `r` by `w`. -/
def writesAt (w r t : Nat) : Bool := decide (entryAt u t = some ⟨w, r, true⟩)

/-- The result of tick `t` with its sources read from `R`. -/
def resultAt (R : Nat → RegFile V) (t : Nat) : Option V :=
  (((machine cfg).stateAt u t).operands (u t) (R t)).map fun x => f t x.1 x.2

variable {u f init}

theorem operands_of_write (hW : 1 ≤ cfg.warps) (hu : ∀ t, InRange (u t)) {w r t : Nat}
    (h : writesAt u w r t = true) (R : RegFile V) :
    ∃ m : InstrMeta,
      ((machine cfg).stateAt u t).operands (u t) R = some (R w m.src0, R w m.src1) := by
  have hentry := of_decide_eq_true h
  obtain ⟨hissue, m, hm, -, -⟩ :=
    (issuedEntry_eq_some (valid_stateAt hW hu t)).mp hentry
  refine ⟨m, ?_⟩
  rw [operands, hissue, Option.bind_some, hm, Option.map_some]

/-- A stage holds the result of the tick that issued its entry. -/
theorem pipe_dataAt {t i : Nat} (hi : i < cfg.execLatency) :
    (dataAt u f init t).pipe i =
      if cfg.execLatency ≤ t + i then
        resultAt u f (fun t => (dataAt u f init t).regs) (t + i - cfg.execLatency)
      else none := by
  refine delay_eq (fun t i => (dataAt u f init t).pipe i) (fun _ _ => rfl) ?_ ?_ hi
  · intro t i hlt
    exact if_neg (Nat.ne_of_lt hlt)
  · intro t i hlast
    exact if_pos hlast

section Registers

variable (hW : 1 ≤ cfg.warps) (hL : 1 ≤ cfg.execLatency) (hu : ∀ t, InRange (u t))

include hW hu

theorem sequential_eq (w r t : Nat) :
    sequential u f init t w r =
      lastWritten (writesAt u w r) (fun s => (resultAt u f (sequential u f init) s).getD (init w r))
        (init w r) t := by
  induction t with
  | zero => rfl
  | succ t ih =>
    have hstep : sequential u f init (t + 1) w r =
        if entryAt u t = some ⟨w, r, true⟩ then
          (resultAt u f (sequential u f init) t).getD (sequential u f init t w r)
        else sequential u f init t w r := rfl
    rw [lastWritten_succ, hstep, ← ih]
    by_cases hw : writesAt u w r t = true
    · obtain ⟨m, hm⟩ := operands_of_write hW hu hw (sequential u f init t)
      rw [if_pos hw, if_pos (of_decide_eq_true hw), resultAt, hm]
      rfl
    · rw [if_neg hw, if_neg fun h => hw (decide_eq_true h)]

include hL

/-- The register file lags by the length of the pipeline. -/
theorem regs_dataAt (w r t : Nat) :
    (dataAt u f init t).regs w r =
      lastWritten (writesAt u w r)
        (fun s => (resultAt u f (fun t => (dataAt u f init t).regs) s).getD (init w r))
        (init w r) (t - cfg.execLatency) := by
  refine eq_lastWritten_delayed (g := fun t => (dataAt u f init t).regs w r) rfl (fun t => ?_) t
  show (if ((machine cfg).stateAt u t).stage 0 = some ⟨w, r, true⟩ then
    ((dataAt u f init t).pipe 0).getD _ else _) = _
  rw [stage_stateAt hL, pipe_dataAt hL, Nat.add_zero]
  by_cases hle : cfg.execLatency ≤ t
  · simp only [hle, if_true, true_and]
    by_cases hw : writesAt u w r (t - cfg.execLatency) = true
    · obtain ⟨m, hm⟩ := operands_of_write hW hu hw (dataAt u f init (t - cfg.execLatency)).regs
      rw [if_pos hw, if_pos (of_decide_eq_true hw), resultAt, hm]
      rfl
    · rw [if_neg hw, if_neg fun h => hw (decide_eq_true h)]
  · rw [if_neg hle, if_neg (by simp), if_neg fun h => hle h.1]

omit hW hu in
/-- A register without a write in flight has seen all its writes. -/
theorem lastWritten_of_not_inPipe {α : Type} {val : Nat → α} {x : α} {w r t : Nat}
    (h : ¬ ((machine cfg).stateAt u t).InPipe w r) :
    lastWritten (writesAt u w r) val x t =
      lastWritten (writesAt u w r) val x (t - cfg.execLatency) := by
  refine lastWritten_eq_of_quiet (Nat.sub_le _ _) fun s hle hlt => ?_
  by_contra hw
  have hentry := of_decide_eq_true (Bool.of_not_eq_false hw)
  refine h ⟨s + cfg.execLatency - t, ?_⟩
  rw [stage_stateAt (by omega), if_pos (by omega),
    show t + (s + cfg.execLatency - t) - cfg.execLatency = s by omega]
  exact hentry

/-- With the same results so far, a register without a write in flight holds what
it holds in the sequential run. -/
theorem regs_eq_sequential {w r t : Nat} (h : ¬ ((machine cfg).stateAt u t).InPipe w r)
    (hsame : ∀ s, s < t → ReadsInOrder u f init s) :
    (dataAt u f init t).regs w r = sequential u f init t w r := by
  rw [regs_dataAt hW hL hu, sequential_eq hW hu, lastWritten_of_not_inPipe hL h]
  refine lastWritten_congr fun s hs _ => ?_
  rw [resultAt, resultAt, hsame s (by omega)]

/-- RAW-safe ticks read in order. -/
theorem readsInOrder_of_rawSafe {n : Nat}
    (hsafe : ∀ t, t < n → ((machine cfg).stateAt u t).RawSafe (u t)) {t : Nat} (ht : t < n) :
    ReadsInOrder u f init t := by
  induction t using Nat.strongRecOn with
  | ind t ih =>
    have hprev : ∀ s, s < t → ReadsInOrder u f init s := fun s hs => ih s hs (by omega)
    rw [ReadsInOrder, operands, operands]
    cases hw : ((machine cfg).stateAt u t).issuedWarp (u t) with
    | none => rfl
    | some w =>
      cases hm : (u t).getD w none with
      | none => rw [Option.bind_some, Option.bind_some, hm, Option.map_none, Option.map_none]
      | some m =>
        have hfree : ∀ r, r = m.src0 ∨ r = m.src1 →
            ¬ ((machine cfg).stateAt u t).InPipe w r := by
          intro r hr hpipe
          obtain ⟨i, hi⟩ := hpipe
          obtain ⟨h0, h1⟩ := hsafe t ht w m hw hm i _ hi rfl rfl
          rcases hr with hr | hr
          · exact h0 hr
          · exact h1 hr
        rw [Option.bind_some, Option.bind_some, hm, Option.map_some, Option.map_some,
          regs_eq_sequential hW hL hu (hfree _ (Or.inl rfl)) hprev,
          regs_eq_sequential hW hL hu (hfree _ (Or.inr rfl)) hprev]

/-- When every instruction computes a value of its own, a source with a write in
flight is read too early. -/
theorem regs_ne_sequential {w r t : Nat} (h : ((machine cfg).stateAt u t).InPipe w r) :
    (dataAt u (fun t _ _ => t + 1) (fun _ _ => 0) t).regs w r ≠
      sequential u (fun t _ _ => t + 1) (fun _ _ => 0) t w r := by
  obtain ⟨i, hi⟩ := h
  have hlt := lt_of_stage hi
  rw [stage_stateAt hlt] at hi
  by_cases hle : cfg.execLatency ≤ t + i
  · rw [if_pos hle] at hi
    have hvalue : ∀ (R : Nat → RegFile Nat) s, writesAt u w r s = true →
        (resultAt u (fun t _ _ => t + 1) R s).getD 0 = s + 1 := by
      intro R s hs
      obtain ⟨m, hm⟩ := operands_of_write hW hu hs (R s)
      rw [resultAt, hm]
      rfl
    -- The write in flight, or a later one, is the latest of the sequential run.
    obtain ⟨s, hlatest, hge, -, hs⟩ := exists_latest (t := t) (P := writesAt u w r)
      (s := t + i - cfg.execLatency) (by omega) (decide_eq_true hi)
    rw [sequential_eq hW hu, lastWritten_of_latest hlatest, hvalue _ s hs, regs_dataAt hW hL hu]
    cases hold : latest (writesAt u w r) (t - cfg.execLatency) with
    | none =>
      rw [lastWritten, hold]
      exact (Nat.succ_ne_zero s).symm
    | some s' =>
      obtain ⟨hlt', hs'⟩ := latest_spec hold
      rw [lastWritten_of_latest hold, hvalue _ s' hs']
      omega
  · rw [if_neg hle] at hi
    exact absurd hi (by simp)

end Registers

end Run

/-- The first `n` ticks read the values of the sequential run, whatever the
instructions compute and the registers hold at first, exactly when all of them
are RAW safe.  Then every register without a write in flight also holds its
sequential value. -/
theorem reads_in_order_iff (hW : 1 ≤ cfg.warps) (hL : 1 ≤ cfg.execLatency)
    {u : Nat → WarpInstrs cfg} (hu : ∀ t, InRange (u t)) (n : Nat) :
    ((∀ (V : Type) (f : Nat → V → V → V) (init : RegFile V) (t : Nat), t < n →
        ReadsInOrder u f init t) ↔
      ∀ t, t < n → ((machine cfg).stateAt u t).RawSafe (u t)) ∧
    ((∀ t, t < n → ((machine cfg).stateAt u t).RawSafe (u t)) →
      ∀ (V : Type) (f : Nat → V → V → V) (init : RegFile V) (w r : Nat),
        ¬ ((machine cfg).stateAt u n).InPipe w r →
          (dataAt u f init n).regs w r = sequential u f init n w r) := by
  have hreads : (∀ t, t < n → ((machine cfg).stateAt u t).RawSafe (u t)) →
      ∀ (V : Type) (f : Nat → V → V → V) (init : RegFile V) (t : Nat), t < n →
        ReadsInOrder u f init t :=
    fun hsafe V f init t ht => readsInOrder_of_rawSafe hW hL hu hsafe ht
  refine ⟨⟨fun h t ht => ?_, hreads⟩, fun hsafe V f init w r hno => ?_⟩
  · intro w m hw hm i e hi hwarp hdst
    obtain ⟨ew, ed, eh⟩ := e
    simp only at hwarp hdst
    subst hwarp hdst
    have hsame := h Nat (fun t _ _ => t + 1) (fun _ _ => 0) t ht
    rw [ReadsInOrder, operands, operands, hw, Option.bind_some, Option.bind_some, hm,
      Option.map_some, Option.map_some, Option.some_inj, Prod.mk.injEq] at hsame
    have hne := regs_ne_sequential hW hL hu ⟨i, hi⟩
    constructor
    · rintro rfl
      exact hne hsame.1
    · rintro rfl
      exact hne hsame.2
  · exact regs_eq_sequential hW hL hu hno fun s hs => hreads hsafe V f init s hs

/-- Two writes of `r0` in a row and, once both are written back, a read of it. -/
def lateRead (t : Nat) : WarpInstrs { warps := 1, regs := 2, execLatency := 2 } :=
  #v[if t < 2 then some { src0 := 1, src1 := 1, dst := 0, hasDst := true }
    else if t = 4 then some { src0 := 0, src1 := 0 } else none]

/-- The bit of `r0` is clear while the second write is in the pipeline, but
nothing reads `r0` then. -/
theorem reads_in_order_late_read :
    ReadsInOrder lateRead (fun t a b => t + a + b) (fun _ _ => 1) 4 := by
  have hrange : ∀ t, InRange (lateRead t) := fun t => inRange_one_warp fun m hm => by
    split_ifs at hm <;> obtain rfl := Option.some.inj hm <;> decide
  refine (reads_in_order_iff (by decide) (by decide) hrange 5).1.mpr
    (fun t ht w m _ hm i e hi hwarp _ => ?_) Nat _ _ 4 (by decide)
  have hw : w < 1 := by
    by_contra hge
    rw [getD_of_ge _ (Nat.le_of_not_lt hge)] at hm
    exact absurd hm (by simp)
  obtain rfl : w = 0 := Nat.lt_one_iff.mp hw
  have hi' : i = 0 ∨ i = 1 := by
    have hlt : i < 2 := lt_of_stage hi
    omega
  obtain rfl | rfl | rfl | rfl | rfl : t = 0 ∨ t = 1 ∨ t = 2 ∨ t = 3 ∨ t = 4 := by omega
  · exact absurd ((stage_fresh i).symm.trans hi) (by simp)
  · have hdst : e.dst = 0 := by
      rcases hi' with rfl | rfl
      · have hempty : ((machine _).stateAt lateRead 1).stage 0 = none := by decide +kernel
        exact absurd (hempty.symm.trans hi) (by simp)
      · have hfirst : ((machine _).stateAt lateRead 1).stage 1 = some ⟨0, 0, true⟩ := by
          decide +kernel
        exact (WbResult.mk.inj (Option.some.inj (hi.symm.trans hfirst))).2.1
    obtain rfl := Option.some.inj hm
    rw [hdst]
    decide
  · cases hm
  · cases hm
  · have hempty : ((machine _).stateAt lateRead 4).stage 0 = none ∧
        ((machine _).stateAt lateRead 4).stage 1 = none := by
      decide +kernel
    rcases hi' with rfl | rfl
    · exact absurd (hempty.1.symm.trans hi) (by simp)
    · exact absurd (hempty.2.symm.trans hi) (by simp)

end MiniSM
end Cpp
end Simt
