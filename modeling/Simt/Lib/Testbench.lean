import Simt.Lib.Mealy

/-
Testbench processes over a clocked machine.

A process assigns to the inputs and waits for clock edges.  What it assigns at a
rising edge races with the registers, which sample the inputs at the same edge:
`late n` says that they sample the edge with number `n` after the assignments.
The outputs that the process reads at the edge are those before it.
-/

namespace Simt

/-- A statement of a process. -/
inductive Stmt (ι ο : Type*)
  | assign (f : ι → ι)
  | posedge
  /-- Up to the falling edge after the next rising one. -/
  | cycle
  /-- At most `n` rising edges, up to the first with outputs that satisfy `q`. -/
  | waitFor (n : Nat) (q : ο → Bool)

namespace Stmt

variable {ι ο : Type*}

/-- The assignments of a statement stay in `A`. -/
def StaysIn (A : ι → Prop) : Stmt ι ο → Prop
  | assign f => ∀ i, A i → A (f i)
  | _ => True

variable {A : ι → Prop}

theorem staysIn_posedge : (posedge : Stmt ι ο).StaysIn A := trivial

theorem staysIn_cycle : (cycle : Stmt ι ο).StaysIn A := trivial

theorem staysIn_waitFor {n : Nat} {q : ο → Bool} : (waitFor n q : Stmt ι ο).StaysIn A := trivial

/-- The statement waits for nothing but an edge. -/
def NoWait : Stmt ι ο → Prop
  | waitFor _ _ => False
  | _ => True

/-- The statement waits for something. -/
def waits : Stmt ι ο → Bool
  | assign _ => false
  | _ => true

end Stmt

/-- A process and its machine. -/
structure Bench (σ ι : Type*) where
  state : σ
  inputs : ι
  /-- The inputs that the rising edge found at which the process stands. -/
  found : Option ι
  /-- The edges that the registers have sampled. -/
  edges : Nat

namespace Bench

variable {σ ι ο : Type*}

section Run

variable (M : Mealy σ ι ο) (late : Nat → Bool)

/-- The registers sample the edge at which the process stands. -/
def sample (b : Bench σ ι) : Bench σ ι :=
  match b.found with
  | none => b
  | some i =>
    { b with
      state := M.next b.state (if late b.edges then b.inputs else i)
      found := none
      edges := b.edges + 1 }

/-- `@(posedge clk)`. -/
def posedge (b : Bench σ ι) : Bench σ ι :=
  { b.sample M late with found := some b.inputs }

/-- `@(posedge clk) @(negedge clk)`. -/
def cycle (b : Bench σ ι) : Bench σ ι := (b.posedge M late).sample M late

def waitFor (q : ο → Bool) : Nat → Bench σ ι → Bench σ ι
  | 0, b => b
  | n + 1, b =>
    let b := b.posedge M late
    if q (M.out b.state b.inputs) then b else waitFor q n b

def exec (b : Bench σ ι) : Stmt ι ο → Bench σ ι
  | .assign f => { b with inputs := f b.inputs }
  | .posedge => b.posedge M late
  | .cycle => b.cycle M late
  | .waitFor n q => b.waitFor M late q n

def run (b : Bench σ ι) (stmts : List (Stmt ι ο)) : Bench σ ι := stmts.foldl (exec M late) b

@[simp] theorem run_nil (b : Bench σ ι) : b.run M late [] = b := rfl

@[simp] theorem run_cons (b : Bench σ ι) (s : Stmt ι ο) (stmts : List (Stmt ι ο)) :
    b.run M late (s :: stmts) = (b.exec M late s).run M late stmts := rfl

theorem run_append (b : Bench σ ι) (stmts stmts' : List (Stmt ι ο)) :
    b.run M late (stmts ++ stmts') = (b.run M late stmts).run M late stmts' := List.foldl_append

@[simp] theorem inputs_sample (b : Bench σ ι) : (b.sample M late).inputs = b.inputs := by
  unfold sample
  split <;> rfl

@[simp] theorem found_sample (b : Bench σ ι) : (b.sample M late).found = none := by
  unfold sample
  split
  next h => exact h
  next => rfl

variable {M late}

theorem sample_of_none {b : Bench σ ι} (h : b.found = none) : b.sample M late = b := by
  unfold sample
  rw [h]

theorem sample_of_some {b : Bench σ ι} {i : ι} (h : b.found = some i) :
    b.sample M late =
      { b with
        state := M.next b.state (if late b.edges then b.inputs else i)
        found := none
        edges := b.edges + 1 } := by
  unfold sample
  rw [h]

/-- A process that has just waited for an edge stands at one. -/
theorem found_run_posedges (n : Nat) (b : Bench σ ι) :
    (b.run M late (List.replicate (n + 1) .posedge)).found.isSome = true := by
  induction n generalizing b with
  | zero => rfl
  | succ n ih =>
    rw [List.replicate_succ, run_cons]
    exact ih _

end Run

/-! ## Invariants -/

/-- `J` holds of the registers and the edges they have sampled, and `A` of every
input that they may sample next. -/
structure Keeps (J : σ → Nat → Prop) (A : ι → Prop) (b : Bench σ ι) : Prop where
  state : J b.state b.edges
  inputs : A b.inputs
  found : ∀ i, b.found = some i → A i

section Invariant

variable {M : Mealy σ ι ο} {late : Nat → Bool} {J : σ → Nat → Prop} {A : ι → Prop} {b : Bench σ ι}
variable (hnext : ∀ s n i, J s n → A i → J (M.next s i) (n + 1))

include hnext

theorem Keeps.sample (h : b.Keeps J A) : (b.sample M late).Keeps J A := by
  unfold Bench.sample
  cases hfound : b.found with
  | none => exact h
  | some i =>
    have hsampled : A (if late b.edges then b.inputs else i) := by
      split
      · exact h.inputs
      · exact h.found i hfound
    exact ⟨hnext _ _ _ h.state hsampled, h.inputs, fun _ hi => by cases hi⟩

theorem Keeps.posedge (h : b.Keeps J A) : (b.posedge M late).Keeps J A := by
  have hs : (b.sample M late).Keeps J A := h.sample hnext
  refine ⟨hs.state, hs.inputs, fun i hi => ?_⟩
  obtain rfl := Option.some.inj hi
  exact h.inputs

theorem Keeps.cycle (h : b.Keeps J A) : (b.cycle M late).Keeps J A :=
  (h.posedge hnext).sample hnext

theorem Keeps.waitFor {q : ο → Bool} {n : Nat} (h : b.Keeps J A) :
    (b.waitFor M late q n).Keeps J A := by
  induction n generalizing b with
  | zero => exact h
  | succ n ih =>
    rw [Bench.waitFor]
    split
    · exact h.posedge hnext
    · exact ih (h.posedge hnext)

theorem Keeps.exec {s : Stmt ι ο} (hs : s.StaysIn A) (h : b.Keeps J A) :
    (b.exec M late s).Keeps J A := by
  cases s with
  | assign f => exact ⟨h.state, hs _ h.inputs, h.found⟩
  | posedge => exact h.posedge hnext
  | cycle => exact h.cycle hnext
  | waitFor n q => exact h.waitFor hnext

theorem Keeps.run {stmts : List (Stmt ι ο)} (hs : ∀ s ∈ stmts, s.StaysIn A) (h : b.Keeps J A) :
    (b.run M late stmts).Keeps J A := by
  induction stmts generalizing b with
  | nil => exact h
  | cons s stmts ih =>
    obtain ⟨hhead, htail⟩ := List.forall_mem_cons.mp hs
    exact ih htail (h.exec hnext hhead)

end Invariant

/-! ## Waits that end at once -/

section Prompt

variable (M : Mealy σ ι ο) (late : Nat → Bool)

/-- The edges that the process has come to. -/
def reached (b : Bench σ ι) : Nat := b.edges + if b.found.isSome then 1 else 0

/-- A wait ends at its first edge. -/
def PromptAt (b : Bench σ ι) : Stmt ι ο → Prop
  | .waitFor n q =>
    0 < n ∧ q (M.out (b.posedge M late).state (b.posedge M late).inputs) = true
  | _ => True

/-- Every wait of a run ends at its first edge. -/
def Prompt : Bench σ ι → List (Stmt ι ο) → Prop
  | _, [] => True
  | b, s :: stmts => b.PromptAt M late s ∧ Prompt (b.exec M late s) stmts

variable {M late} {b : Bench σ ι}

theorem reached_sample : (b.sample M late).reached = b.reached := by
  unfold sample reached
  cases hfound : b.found <;> simp [hfound]

theorem reached_posedge : (b.posedge M late).reached = b.reached + 1 := by
  have hsampled : (b.sample M late).reached = (b.sample M late).edges := by
    rw [reached, found_sample]
    rfl
  calc (b.posedge M late).reached = (b.sample M late).edges + 1 := rfl
    _ = b.reached + 1 := by rw [← hsampled, reached_sample]

theorem waitFor_of_promptAt {n : Nat} {q : ο → Bool} (h : b.PromptAt M late (.waitFor n q)) :
    b.waitFor M late q n = b.posedge M late := by
  obtain ⟨hn, hq⟩ := h
  obtain ⟨n, rfl⟩ := Nat.exists_eq_add_one_of_ne_zero (Nat.ne_of_gt hn)
  exact if_pos hq

/-- The edge that ends a wait, between assignments of the process. -/
theorem run_assign_waitFor (hnone : b.found = none) {f g : ι → ι} {n : Nat} {q : ο → Bool}
    (h : (b.exec M late (.assign f)).PromptAt M late (.waitFor n q)) :
    b.run M late [.assign f, .waitFor n q, .assign g, .posedge] =
      { state := M.next b.state (if late b.edges then g (f b.inputs) else f b.inputs)
        inputs := g (f b.inputs)
        found := some (g (f b.inputs))
        edges := b.edges + 1 } := by
  have hnone' : (b.exec M late (.assign f)).found = none := hnone
  have hwait : (b.exec M late (.assign f)).exec M late (.waitFor n q) =
      { b with inputs := f b.inputs, found := some (f b.inputs) } := by
    refine (waitFor_of_promptAt h).trans ?_
    rw [posedge, sample_of_none hnone']
    rfl
  rw [run_cons, run_cons, hwait]
  rfl

theorem reached_exec {s : Stmt ι ο} (h : b.PromptAt M late s) :
    (b.exec M late s).reached = b.reached + if s.waits then 1 else 0 := by
  cases s with
  | assign f => rfl
  | posedge => exact reached_posedge
  | cycle => exact reached_sample.trans reached_posedge
  | waitFor n q =>
    rw [exec, waitFor_of_promptAt h]
    exact reached_posedge

/-- The process comes to an edge with each statement that waits. -/
theorem reached_run {stmts : List (Stmt ι ο)} (h : b.Prompt M late stmts) :
    (b.run M late stmts).reached = b.reached + stmts.countP Stmt.waits := by
  induction stmts generalizing b with
  | nil => rfl
  | cons s stmts ih =>
    obtain ⟨hs, hrest⟩ := h
    rw [run_cons, ih hrest, reached_exec hs, List.countP_cons, Nat.add_assoc,
      Nat.add_comm (List.countP _ _)]

theorem prompt_append {stmts stmts' : List (Stmt ι ο)} (h : b.Prompt M late stmts)
    (h' : (b.run M late stmts).Prompt M late stmts') : b.Prompt M late (stmts ++ stmts') := by
  induction stmts generalizing b with
  | nil => exact h'
  | cons s stmts ih => exact ⟨h.1, ih h.2 h'⟩

theorem prompt_of_noWait {stmts : List (Stmt ι ο)} (h : ∀ s ∈ stmts, s.NoWait) :
    b.Prompt M late stmts := by
  induction stmts generalizing b with
  | nil => trivial
  | cons s stmts ih =>
    obtain ⟨hs, hrest⟩ := List.forall_mem_cons.mp h
    refine ⟨?_, ih hrest⟩
    cases s with
    | waitFor n q => exact hs.elim
    | assign f => trivial
    | posedge => trivial
    | cycle => trivial

/-- The inputs that a wait finds are those that the process has assigned. -/
theorem promptAt_waitFor {J : σ → Nat → Prop} {A : ι → Prop}
    (hnext : ∀ s n i, J s n → A i → J (M.next s i) (n + 1)) (hb : b.Keeps J A) {n : Nat}
    {q : ο → Bool} (hn : 0 < n) (hq : ∀ s n, J s n → q (M.out s b.inputs) = true) :
    b.PromptAt M late (.waitFor n q) := by
  have hs : (b.sample M late).Keeps J A := hb.sample hnext
  refine ⟨hn, ?_⟩
  show q (M.out (b.sample M late).state (b.sample M late).inputs) = true
  rw [inputs_sample]
  exact hq _ _ hs.state

/-! ### Parts of a process -/

/-- Whatever a bench that keeps `J` goes through in `stmts`, its waits end at
once and it keeps `J'` afterwards. -/
def Triple (M : Mealy σ ι ο) (late : Nat → Bool) (A : ι → Prop) (J J' : σ → Nat → Prop)
    (stmts : List (Stmt ι ο)) : Prop :=
  ∀ b : Bench σ ι, b.Keeps J A → b.Prompt M late stmts ∧ (b.run M late stmts).Keeps J' A

theorem Triple.append {A : ι → Prop} {J J' J'' : σ → Nat → Prop} {stmts stmts' : List (Stmt ι ο)}
    (h : Triple M late A J J' stmts) (h' : Triple M late A J' J'' stmts') :
    Triple M late A J J'' (stmts ++ stmts') := by
  intro b hb
  obtain ⟨hprompt, hkeeps⟩ := h b hb
  obtain ⟨hprompt', hkeeps'⟩ := h' _ hkeeps
  rw [run_append]
  exact ⟨prompt_append hprompt hprompt', hkeeps'⟩

theorem Triple.of_noWait {J : σ → Nat → Prop} {A : ι → Prop}
    (hnext : ∀ s n i, J s n → A i → J (M.next s i) (n + 1)) {stmts : List (Stmt ι ο)}
    (hs : ∀ s ∈ stmts, s.StaysIn A) (hw : ∀ s ∈ stmts, s.NoWait) : Triple M late A J J stmts :=
  fun _ hb => ⟨prompt_of_noWait hw, hb.run hnext hs⟩

end Prompt

end Bench
end Simt
