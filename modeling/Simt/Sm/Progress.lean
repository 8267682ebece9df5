import Simt.Sm.Fairness
import Simt.Sm.RtlRefines
import Simt.Sm.Threads

/-
Progress of the RTL SM.

A warp that keeps presenting an instruction is issued within `EXEC_LATENCY`
cycles and one for each warp.  So a warp that presents its stream without
holding back comes to the end of it: `Stream.work` counts the cycles left, and
every issue, every end of a path and every pop takes from it at least the cycles
that it took.
-/

namespace Simt
namespace Sm

open Cpp (Config WarpInstrs InRange MiniSM)
open Rtl (Params SmIn SmOut MiniSmTop)

/-! ## The wait for an issue -/

/-- The registers of every presented instruction are below `REGS`. -/
def RegsInRange {p : Params} (inp : SmIn p) : Prop :=
  ∀ w, w < p.warps → inp.warpHasInstr.getD w false = true →
    (inp.warpInstr.getD w default).src0.toNat < p.regs ∧
      (inp.warpInstr.getD w default).src1.toNat < p.regs ∧
        (inp.warpInstr.getD w default).dst.toNat < p.regs

section Wait

variable {cfg : Config} {dataWidth pcW : Nat}

/-- The instructions at the ports as the simulator is given them. -/
def instrsOf (inp : SmIn (params cfg dataWidth pcW)) : WarpInstrs cfg :=
  Vector.ofFn fun w =>
    if inp.warpHasInstr.getD w false then
      let m := inp.warpInstr.getD w default
      some { src0 := m.src0.toNat, src1 := m.src1.toNat, dst := m.dst.toNat, hasDst := m.hasDst }
    else none

theorem instrsOf_getD {inp : SmIn (params cfg dataWidth pcW)} {w : Nat} (hw : w < cfg.warps) :
    (instrsOf inp).getD w none =
      if inp.warpHasInstr.getD w false then
        some ⟨(inp.warpInstr.getD w default).src0.toNat, (inp.warpInstr.getD w default).src1.toNat,
          (inp.warpInstr.getD w default).dst.toNat, (inp.warpInstr.getD w default).hasDst⟩
      else none := by
  rw [instrsOf, getD_ofFn _ hw]

theorem sameInstrs_instrsOf (inp : SmIn (params cfg dataWidth pcW)) :
    SameInstrs (instrsOf inp) inp := by
  intro w hw
  rw [instrsOf_getD hw]
  cases h : inp.warpHasInstr.getD w false with
  | true => exact ⟨rfl, rfl, rfl, rfl, rfl⟩
  | false => rfl

theorem inRange_instrsOf {inp : SmIn (params cfg dataWidth pcW)} (h : RegsInRange inp) :
    InRange (instrsOf inp) := by
  intro w m hm
  by_cases hw : w < cfg.warps
  · rw [instrsOf_getD hw] at hm
    cases hhas : inp.warpHasInstr.getD w false with
    | true =>
      rw [hhas, if_pos rfl] at hm
      obtain rfl := Option.some.inj hm
      exact h w hw hhas
    | false =>
      rw [hhas, if_neg Bool.false_ne_true] at hm
      exact absurd hm (by simp)
  · rw [getD_of_ge _ (Nat.le_of_not_lt hw)] at hm
    exact absurd hm (by simp)

section Run

variable (hW : 2 ≤ cfg.warps) (hL : 1 ≤ cfg.execLatency)
  {v : Nat → SmIn (params cfg dataWidth pcW)} (hv : ∀ t, RegsInRange (v t))

include hW hL hv

theorem tied_stateAt (t : Nat) :
    Tied ((MiniSM.machine cfg).stateAt (fun t => instrsOf (v t)) t)
      ((MiniSmTop.machine (params cfg dataWidth pcW)).stateAt v t) := by
  induction t with
  | zero => exact tied_init hW
  | succ t ih => exact ih.next (inRange_instrsOf (hv t)) (sameInstrs_instrsOf (v t)) hL

theorem issues_iff {w t : Nat} :
    Issues v w t ↔
      ((MiniSM.machine cfg).outAt (fun t => instrsOf (v t)) t).issuedWarp = some w := by
  have hsame := (tied_stateAt hW hL hv t).sameCycle (inRange_instrsOf (hv t))
    (sameInstrs_instrsOf (v t)) hL
  have hissue : ((MiniSM.machine cfg).outAt (fun t => instrsOf (v t)) t).issuedWarp =
      if ((MiniSmTop.machine (params cfg dataWidth pcW)).stateAt v t).issueValid (v t) then
        some (((MiniSmTop.machine (params cfg dataWidth pcW)).stateAt v t).issueWarpId (v t)).toNat
      else none := hsame.issue
  rw [hissue, Issues]
  cases ((MiniSmTop.machine (params cfg dataWidth pcW)).stateAt v t).issueValid (v t) <;> simp

/-- A warp that presents an instruction and has issued nothing for
`exec_latency` cycles is eligible. -/
theorem eligible_of_quiet {w t : Nat} (hw : w < cfg.warps)
    (hpresent : (v t).warpHasInstr.getD w false = true)
    (hquiet : ∀ s, s < t → t ≤ s + cfg.execLatency → ¬ Issues v w s) :
    ((MiniSM.machine cfg).stateAt (fun t => instrsOf (v t)) t).eligible (instrsOf (v t)) w =
      true := by
  have hu : ∀ t, InRange (instrsOf (v t)) := fun t => inRange_instrsOf (hv t)
  have hsome : ((instrsOf (v t)).getD w none).isSome = true := by
    rw [instrsOf_getD hw, hpresent, if_pos rfl, Option.isSome_some]
  refine MiniSM.eligible_of_free (hu t) hsome fun r hr => ?_
  exact MiniSM.isBusy_of_quiet (Nat.le_of_succ_le hW) hL hu hw hr fun s hs hle hissue =>
    hquiet s hs hle ((issues_iff hW hL hv).mpr hissue)

/-- A warp that presents an instruction in every cycle of a window of
`EXEC_LATENCY + WARPS` cycles is issued in one of them. -/
theorem exists_issue {w t₀ : Nat} (hw : w < cfg.warps)
    (hpresent : ∀ t, t₀ ≤ t → t < t₀ + (cfg.execLatency + cfg.warps) →
      (v t).warpHasInstr.getD w false = true) :
    ∃ t, t₀ ≤ t ∧ t < t₀ + (cfg.execLatency + cfg.warps) ∧ Issues v w t := by
  by_contra hno
  have hquiet : ∀ t, t₀ ≤ t → t < t₀ + (cfg.execLatency + cfg.warps) → ¬ Issues v w t :=
    fun t h1 h2 h => hno ⟨t, h1, h2, h⟩
  have hu : ∀ t, InRange (instrsOf (v t)) := fun t => inRange_instrsOf (hv t)
  have heligible : ∀ k, k < cfg.warps →
      ((MiniSM.machine cfg).stateAt (fun t => instrsOf (v t)) (t₀ + cfg.execLatency + k)).eligible
        (instrsOf (v (t₀ + cfg.execLatency + k))) w = true := fun k hk =>
    eligible_of_quiet hW hL hv hw (hpresent _ (by omega) (by omega)) fun s hs hle =>
      hquiet s (by omega) (by omega)
  obtain ⟨k, hk, hissue⟩ :=
    MiniSM.exists_issue_of_eligible (Nat.le_of_succ_le hW) hu hw heligible
  exact hquiet _ (by omega) (by omega) ((issues_iff hW hL hv).mpr hissue)

end Run

end Wait

/-! ## The end of a stream -/

section Halting

variable {p : Params}

/-- The sizes of the RTL parameters for the simulator. -/
def configOf (p : Params) : Config := ⟨p.warps, p.regs, p.lanes, p.execLatency, p.pdomDepth⟩

/-- The longest wait for an issue. -/
def issueWait (p : Params) : Nat := p.execLatency + p.warps

/-- A warp that presents an instruction in every cycle of a window of
`EXEC_LATENCY + WARPS` cycles is issued in one of them, whatever the other warps
present and whatever branches and path ends come with it. -/
theorem issued_within (hW : 2 ≤ p.warps) (hL : 1 ≤ p.execLatency) {v : Nat → SmIn p}
    (hv : ∀ t, RegsInRange (v t)) {w : Nat} (hw : w < p.warps) (t₀ : Nat)
    (hpresent : ∀ t, t₀ ≤ t → t < t₀ + issueWait p →
      (v t).warpHasInstr.getD w false = true) :
    ∃ t, t₀ ≤ t ∧ t < t₀ + issueWait p ∧ Issues v w t :=
  @exists_issue (configOf p) p.dataWidth p.pcW hW hL v hv w t₀ hw hpresent

theorem regsInRange_mainPorts : RegsInRange mainPorts := by
  intro w hw _
  have hinstr : mainPorts.warpInstr.getD w default = ⟨0, 1, 0, true, 0⟩ := by
    rw [mainPorts, getD_of_lt _ hw, Vector.getElem_replicate]
  rw [hinstr]
  decide

/-- Warp 3 of the workload. -/
theorem issued_within_last_warp :
    ∃ t, 5 ≤ t ∧ t < 5 + (4 + 4) ∧ Issues (fun _ => mainPorts) 3 t :=
  issued_within (by decide) (by decide) (fun _ => regsInRange_mainPorts) (by decide) 5
    fun _ _ _ => by rw [mainPorts, getD_of_lt _ (by decide), Vector.getElem_replicate]

namespace Stream

/-- The cycles left until the stream is at its end. -/
def work (st : Stream p) : Nat :=
  st.code.cost (issueWait p) + Code.costAll (issueWait p) st.deferred +
    Code.costAll (issueWait p) st.later + if st.popping then 1 else 0

/-- The warp holds nothing back. -/
def Eager (st : Stream p) (inp : SmIn p) (w : Nat) : Prop :=
  st.popping = false →
    (st.code = .exit → inp.warpPathDone.getD w false = true) ∧
      (st.code ≠ .exit → inp.warpHasInstr.getD w false = true)

theorem work_endPath {st : Stream p} (hp : st.popping = false) (hk : st.code = .exit)
    (hhalt : ¬ st.Halted) : st.endPath.work + 1 ≤ st.work := by
  obtain ⟨code, deferred, later, popping, acc⟩ := st
  simp only at hp hk
  subst hp hk
  cases deferred with
  | cons k ks =>
    simp only [endPath, work, Code.cost, Code.costAll_cons, Bool.false_eq_true, if_true, if_false]
    omega
  | nil =>
    cases later with
    | cons k ks =>
      simp only [endPath, work, Code.cost, Code.costAll_cons, Code.costAll_nil, Bool.false_eq_true,
        if_false]
      omega
    | nil => exact absurd ⟨rfl, rfl, rfl, rfl⟩ hhalt

theorem work_takeBranch {st : Stream p} (m : BitVec p.lanes) {c : LaneCond p} {pc : BitVec p.pcW}
    {t e : WarpCode p} (hk : st.code = .branch c pc t e) :
    (st.takeBranch m c t e).work + issueWait p ≤ st.work := by
  rw [takeBranch]
  split_ifs <;> simp only [work, hk, Code.cost, Code.costAll_cons] <;> omega

end Stream

section Run

variable {v : Nat → SmIn p} {w : Nat} {str : Nat → Stream p} (hf : Follows v w str)

include hf

theorem next_of_quiet {t : Nat} (hp : (str t).popping = false) (hk : (str t).code ≠ .exit)
    (hquiet : ¬ Issues v w t) : str (t + 1) = str t := by
  cases hcode : (str t).code with
  | exit => exact absurd hcode hk
  | op o k => rw [hf.next_op hp hcode, if_neg hquiet]
  | branch c pc kt ke => rw [hf.next_branch hp hcode, if_neg hquiet]

variable (hW : 2 ≤ p.warps) (hL : 1 ≤ p.execLatency) (hw : w < p.warps)
  (hv : ∀ t, RegsInRange (v t)) (he : ∀ t, (str t).Eager (v t) w)

include hW hL hw hv he

/-- The stream waits for its issue, and the issue comes. -/
theorem exists_issue_of_stream {t : Nat} (hp : (str t).popping = false)
    (hk : (str t).code ≠ .exit) :
    ∃ k, k < issueWait p ∧ Issues v w (t + k) ∧ str (t + k) = str t := by
  by_contra hno
  have hwaits : ∀ k, k ≤ issueWait p → str (t + k) = str t := by
    intro k
    induction k with
    | zero => exact fun _ => rfl
    | succ k ih =>
      intro hlt
      have hsame := ih (Nat.le_of_succ_le hlt)
      have hquiet : ¬ Issues v w (t + k) := fun hi => hno ⟨k, hlt, hi, hsame⟩
      exact (next_of_quiet hf (hsame ▸ hp) (hsame ▸ hk) hquiet).trans hsame
  have hpresent : ∀ s, t ≤ s → s < t + issueWait p → (v s).warpHasInstr.getD w false = true := by
    intro s h1 h2
    have hsame := hwaits (s - t) (by omega)
    rw [Nat.add_sub_cancel' h1] at hsame
    exact (he s (hsame ▸ hp)).2 (hsame ▸ hk)
  obtain ⟨t', hle, hlt, hissue⟩ :=
    @exists_issue (configOf p) p.dataWidth p.pcW hW hL v hv w t hw hpresent
  have hlt : t' < t + issueWait p := hlt
  rw [← Nat.add_sub_cancel' hle] at hissue
  exact hno ⟨t' - t, by omega, hissue, hwaits _ (by omega)⟩

theorem progress (t : Nat) (hhalt : ¬ (str t).Halted) :
    ∃ k, 0 < k ∧ (str (t + k)).work + k ≤ (str t).work := by
  cases hp : (str t).popping with
  | true =>
    refine ⟨1, Nat.one_pos, ?_⟩
    rw [hf.next_popping hp]
    simp only [Stream.work, hp, Bool.false_eq_true, if_true, if_false]
    omega
  | false =>
    cases hk : (str t).code with
    | exit =>
      refine ⟨1, Nat.one_pos, ?_⟩
      rw [hf.next_exit hp hk, (he t hp).1 hk, if_pos rfl]
      exact Stream.work_endPath hp hk hhalt
    | op o k =>
      obtain ⟨j, hj, hissue, hsame⟩ := exists_issue_of_stream hf hW hL hw hv he hp
        (by rw [hk]; exact fun h => nomatch h)
      refine ⟨j + 1, Nat.succ_pos j, ?_⟩
      show (str (t + j + 1)).work + (j + 1) ≤ _
      rw [hf.next_op (hsame ▸ hp) (hsame ▸ hk), if_pos hissue, hsame]
      simp only [Stream.work, hk, Code.cost]
      omega
    | branch c pc kt ke =>
      obtain ⟨j, hj, hissue, hsame⟩ := exists_issue_of_stream hf hW hL hw hv he hp
        (by rw [hk]; exact fun h => nomatch h)
      refine ⟨j + 1, Nat.succ_pos j, ?_⟩
      show (str (t + j + 1)).work + (j + 1) ≤ _
      rw [hf.next_branch (hsame ▸ hp) (hsame ▸ hk), if_pos hissue, hsame]
      have hwork := Stream.work_takeBranch
        (((MiniSmTop.machine p).outAt v (t + j)).warpActiveMask.getD w 0) hk
      omega

/-- A stream without holding back is at its end within the work it starts
with. -/
theorem exists_halted (t : Nat) :
    ∃ t', t ≤ t' ∧ t' ≤ t + (str t).work ∧ (str t').Halted :=
  exists_done_within (progress hf hW hL hw hv he) t

omit hW hL hw hv he in
/-- A stream at its end stays there. -/
theorem halted_succ {t : Nat} (h : (str t).Halted) : str (t + 1) = str t := by
  obtain ⟨hk, hd, hl, hp⟩ := h
  have hend : (str t).endPath = str t := by
    simp only [Stream.endPath, hd, hl]
  rw [hf.next_exit hp hk, hend]
  split <;> rfl

omit hW hL hw hv he in
theorem halted_of_le {t t' : Nat} (h : (str t).Halted) (hle : t ≤ t') : str t' = str t := by
  induction hle with
  | refl => rfl
  | step _ ih => exact (halted_succ hf (ih ▸ h)).trans ih

end Run

end Halting

end Sm
end Simt
