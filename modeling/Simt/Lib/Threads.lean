import Simt.Lib.LaneSet

/-
Threads that share one instruction stream.

A thread runs a decision tree of operations on its own value.  A machine that
runs many threads at once keeps a table of lane sets, each with the code its
lanes have still to run, and works on the first entry.  `OnCourse` says that the
values held now, taken through the code still listed, come to the values that
each thread reaches on its own.  Each lemma below is one thing such a machine
does with its first entry.
-/

namespace Simt

/-- What a thread has still to do.  A branch carries a tag for the machine. -/
inductive Code (Op Cond Tag : Type*)
  | exit
  | op (o : Op) (next : Code Op Cond Tag)
  | branch (c : Cond) (tag : Tag) (thenCode elseCode : Code Op Cond Tag)

/-- What the operations and the conditions mean in each lane. -/
structure LaneSem (L α Op Cond : Type*) where
  apply : Op → L → α → α
  test : Cond → L → α → Bool

namespace LaneSem

variable {L α Op Cond : Type*}

/-- The same meaning on values that remember the operations they went through. -/
def logged (S : LaneSem L α Op Cond) : LaneSem L (α × List Op) Op Cond where
  apply o i x := (S.apply o i x.1, x.2 ++ [o])
  test c i x := S.test c i x.1

end LaneSem

namespace Code

variable {L α Op Cond Tag : Type*}

section Meaning

variable (S : LaneSem L α Op Cond) (i : L)

/-- The thread of lane `i` on its own. -/
def run : Code Op Cond Tag → α → α
  | exit, x => x
  | op o next, x => run next (S.apply o i x)
  | branch c _ t e, x => if S.test c i x then run t x else run e x

/-- The operations the thread of lane `i` goes through. -/
def ops : Code Op Cond Tag → α → List Op
  | exit, _ => []
  | op o next, x => o :: ops next (S.apply o i x)
  | branch c _ t e, x => if S.test c i x then ops t x else ops e x

/-- Codes one after the other. -/
def runAll (ks : List (Code Op Cond Tag)) (x : α) : α := ks.foldl (fun x k => run S i k x) x

def opsAll : List (Code Op Cond Tag) → α → List Op
  | [], _ => []
  | k :: ks, x => ops S i k x ++ opsAll ks (run S i k x)

@[simp] theorem runAll_nil (x : α) : runAll S i ([] : List (Code Op Cond Tag)) x = x := rfl

@[simp] theorem runAll_cons (k : Code Op Cond Tag) (ks : List (Code Op Cond Tag)) (x : α) :
    runAll S i (k :: ks) x = runAll S i ks (run S i k x) := rfl

theorem run_logged (k : Code Op Cond Tag) (x : α) (l : List Op) :
    run S.logged i k (x, l) = (run S i k x, l ++ ops S i k x) := by
  induction k generalizing x l with
  | exit => rw [run, run, ops, List.append_nil]
  | op o next ih =>
    show run S.logged i next (S.apply o i x, l ++ [o]) = _
    rw [ih, run, ops, List.append_assoc, List.singleton_append]
  | branch c tag t e iht ihe =>
    show (if S.test c i x then run S.logged i t (x, l) else run S.logged i e (x, l)) = _
    rw [run, ops, iht, ihe]
    split <;> rfl

theorem runAll_logged (ks : List (Code Op Cond Tag)) (x : α) (l : List Op) :
    runAll S.logged i ks (x, l) = (runAll S i ks x, l ++ opsAll S i ks x) := by
  induction ks generalizing x l with
  | nil => rw [runAll_nil, runAll_nil, opsAll, List.append_nil]
  | cons k ks ih => rw [runAll_cons, runAll_cons, run_logged, ih, opsAll, List.append_assoc]

end Meaning

/-! ## Work

A machine gives every operation and every branch at most `d` steps, and two to
the end of a path. -/

/-- The steps it takes to run every path of the code. -/
def cost (d : Nat) : Code Op Cond Tag → Nat
  | exit => 2
  | op _ next => d + cost d next
  | branch _ _ t e => d + cost d t + cost d e

def costAll (d : Nat) : List (Code Op Cond Tag) → Nat
  | [] => 0
  | k :: ks => cost d k + costAll d ks

@[simp] theorem costAll_nil (d : Nat) : costAll d ([] : List (Code Op Cond Tag)) = 0 := rfl

@[simp] theorem costAll_cons (d : Nat) (k : Code Op Cond Tag) (ks : List (Code Op Cond Tag)) :
    costAll d (k :: ks) = cost d k + costAll d ks := rfl

end Code

/-- A run in which every stretch of steps takes its own length off the work left
is done within the work left at its start. -/
theorem exists_done_within {σ : Type*} {run : Nat → σ} {work : σ → Nat} {Done : σ → Prop}
    (hstep : ∀ t, ¬ Done (run t) → ∃ k, 0 < k ∧ work (run (t + k)) + k ≤ work (run t))
    (t : Nat) : ∃ t', t ≤ t' ∧ t' ≤ t + work (run t) ∧ Done (run t') := by
  induction hn : work (run t) using Nat.strongRecOn generalizing t with
  | ind n ih =>
    by_cases hdone : Done (run t)
    · exact ⟨t, Nat.le_refl t, Nat.le_add_right t n, hdone⟩
    · obtain ⟨k, hk, hwork⟩ := hstep t hdone
      obtain ⟨t', hle, hlt, hend⟩ := ih _ (by omega) (t + k) rfl
      exact ⟨t', by omega, by omega, hend⟩

/-! ## Tables -/

section Table

variable {L α Op Cond Tag : Type*} [DecidableEq L]

/-- Lane sets with the code their lanes have still to run. -/
abbrev Table (L Op Cond Tag : Type*) := List (Finset L × Code Op Cond Tag)

/-- The lanes of the table's sets end with their values in `final` after their
own code and then `later`, and the other lanes after `later` alone. -/
structure OnCourse (S : LaneSem L α Op Cond) (final : L → α) (later : List (Code Op Cond Tag))
    (table : Table L Op Cond Tag) (x : L → α) : Prop where
  apart : Apart (table.map Prod.fst)
  listed : ∀ e ∈ table, ∀ i ∈ e.1, Code.runAll S i later (e.2.run S i (x i)) = final i
  others : ∀ i, (∀ e ∈ table, i ∉ e.1) → Code.runAll S i later (x i) = final i

namespace OnCourse

variable {S : LaneSem L α Op Cond} {final x x' : L → α} {later : List (Code Op Cond Tag)}
  {table : Table L Op Cond Tag} {A : Finset L}

theorem not_mem_of_mem {k : Code Op Cond Tag} (h : OnCourse S final later ((A, k) :: table) x)
    {i : L} (hi : i ∈ A) : ∀ e ∈ table, i ∉ e.1 := by
  intro e he hmem
  have hdisj := (apart_cons.mp h.apart).2.1 e.1 (List.mem_map_of_mem he)
  exact Finset.disjoint_left.mp hdisj hi hmem

/-- All lanes start on the same code. -/
theorem start [Fintype L] [Nonempty L] (k : Code Op Cond Tag) (later : List (Code Op Cond Tag))
    (x : L → α) :
    OnCourse S (fun i => Code.runAll S i (k :: later) (x i)) later [(⊤, k)] x where
  apart := apart_singleton.mpr top_ne_bot
  listed := by
    intro e he i _
    rw [List.mem_singleton.mp he]
    rfl
  others := fun i hi => absurd (Finset.mem_univ i) (hi (⊤, k) List.mem_cons_self)

/-- The lanes of the first entry take an operation, and the others keep their
values. -/
theorem op {o : Op} {next : Code Op Cond Tag}
    (h : OnCourse S final later ((A, .op o next) :: table) x)
    (hin : ∀ i, i ∈ A → x' i = S.apply o i (x i)) (hout : ∀ i, i ∉ A → x' i = x i) :
    OnCourse S final later ((A, next) :: table) x' where
  apart := h.apart
  listed := by
    intro e he i hi
    rcases List.mem_cons.mp he with rfl | he
    · rw [hin i hi]
      exact h.listed _ List.mem_cons_self i hi
    · rw [hout i fun hA => h.not_mem_of_mem hA e he hi]
      exact h.listed e (List.mem_cons_of_mem _ he) i hi
  others := by
    intro i hi
    obtain ⟨hA, hrest⟩ := List.forall_mem_cons.mp hi
    rw [hout i hA]
    exact h.others i (List.forall_mem_cons.mpr ⟨hA, hrest⟩)

theorem replace_first {k k' : Code Op Cond Tag}
    (h : OnCourse S final later ((A, k') :: table) x)
    (hk : ∀ i, i ∈ A → Code.runAll S i later (k.run S i (x i)) = final i) :
    OnCourse S final later ((A, k) :: table) x where
  apart := h.apart
  listed := by
    intro entry hentry i hi
    rcases List.mem_cons.mp hentry with rfl | hentry
    · exact hk i hi
    · exact h.listed entry (List.mem_cons_of_mem _ hentry) i hi
  others := by
    intro i hi
    obtain ⟨hA, hrest⟩ := List.forall_mem_cons.mp hi
    exact h.others i (List.forall_mem_cons.mpr ⟨hA, hrest⟩)

section Branch

variable {c : Cond} {tag : Tag} {t e : Code Op Cond Tag} {taken : Finset L}
  (h : OnCourse S final later ((A, .branch c tag t e) :: table) x)
  (htaken : ∀ i, i ∈ taken ↔ S.test c i (x i) = true)

include h htaken

theorem run_then {i : L} (hi : i ∈ A ⊓ taken) :
    Code.runAll S i later (t.run S i (x i)) = final i := by
  obtain ⟨hA, ht⟩ := Finset.mem_inter.mp hi
  rw [← h.listed _ List.mem_cons_self i hA, Code.run, if_pos ((htaken i).mp ht)]

theorem run_else {i : L} (hi : i ∈ A \ taken) :
    Code.runAll S i later (e.run S i (x i)) = final i := by
  obtain ⟨hA, ht⟩ := Finset.mem_sdiff.mp hi
  rw [← h.listed _ List.mem_cons_self i hA, Code.run, if_neg (mt (htaken i).mpr ht)]

/-- The lanes that take the branch run its THEN side and the others wait for
its ELSE side. -/
theorem split (hthen : A ⊓ taken ≠ ⊥) (helse : A \ taken ≠ ⊥) :
    OnCourse S final later ((A ⊓ taken, t) :: (A \ taken, e) :: table) x where
  apart := h.apart.split hthen helse
  listed := by
    intro entry hentry i hi
    rcases List.mem_cons.mp hentry with rfl | hentry
    · exact h.run_then htaken hi
    · rcases List.mem_cons.mp hentry with rfl | hentry
      · exact h.run_else htaken hi
      · exact h.listed entry (List.mem_cons_of_mem _ hentry) i hi
  others := by
    intro i hi
    obtain ⟨hin, hi⟩ := List.forall_mem_cons.mp hi
    obtain ⟨hout, hi⟩ := List.forall_mem_cons.mp hi
    refine h.others i (List.forall_mem_cons.mpr ⟨fun hA => ?_, hi⟩)
    by_cases ht : i ∈ taken
    · exact hin (Finset.mem_inter.mpr ⟨hA, ht⟩)
    · exact hout (Finset.mem_sdiff.mpr ⟨hA, ht⟩)

/-- Every lane takes the branch. -/
theorem allTaken (helse : A \ taken = ⊥) : OnCourse S final later ((A, t) :: table) x := by
  refine h.replace_first fun i hA => h.run_then htaken (Finset.mem_inter.mpr ⟨hA, ?_⟩)
  by_contra ht
  have hmem : i ∈ A \ taken := Finset.mem_sdiff.mpr ⟨hA, ht⟩
  rw [helse] at hmem
  exact Finset.notMem_empty i hmem

/-- No lane takes the branch. -/
theorem noneTaken (hthen : A ⊓ taken = ⊥) : OnCourse S final later ((A, e) :: table) x := by
  refine h.replace_first fun i hA => h.run_else htaken (Finset.mem_sdiff.mpr ⟨hA, ?_⟩)
  intro ht
  have hmem : i ∈ A ⊓ taken := Finset.mem_inter.mpr ⟨hA, ht⟩
  rw [hthen] at hmem
  exact Finset.notMem_empty i hmem

end Branch

/-- An entry at the end of its code leaves the table. -/
theorem drop (h : OnCourse S final later ((A, .exit) :: table) x) :
    OnCourse S final later table x where
  apart := h.apart.tail
  listed := fun e he => h.listed e (List.mem_cons_of_mem _ he)
  others := by
    intro i hi
    by_cases hA : i ∈ A
    · exact h.listed _ List.mem_cons_self i hA
    · exact h.others i (List.forall_mem_cons.mpr ⟨hA, hi⟩)

/-- All lanes come together for the next code. -/
theorem join [Fintype L] [Nonempty L] {k : Code Op Cond Tag}
    (h : OnCourse S final (k :: later) [] x) :
    OnCourse S final later [(⊤, k)] x where
  apart := apart_singleton.mpr top_ne_bot
  listed := by
    intro e he i _
    rw [List.mem_singleton.mp he]
    exact h.others i fun _ hmem => absurd hmem List.not_mem_nil
  others := fun i hi => absurd (Finset.mem_univ i) (hi (⊤, k) List.mem_cons_self)

/-- All lanes come together with nothing left to run. -/
theorem rest [Fintype L] [Nonempty L] (h : OnCourse S final ([] : List (Code Op Cond Tag)) [] x) :
    OnCourse S final ([] : List (Code Op Cond Tag)) [(⊤, .exit)] x where
  apart := apart_singleton.mpr top_ne_bot
  listed := by
    intro e he i _
    rw [List.mem_singleton.mp he]
    exact h.others i fun _ hmem => absurd hmem List.not_mem_nil
  others := fun i hi => absurd (Finset.mem_univ i) (hi (⊤, .exit) List.mem_cons_self)

/-- With nothing left to run, each lane has the value its own thread ends with. -/
theorem finished (h : OnCourse S final ([] : List (Code Op Cond Tag)) [] x) (i : L) :
    x i = final i :=
  h.others i fun _ hmem => absurd hmem List.not_mem_nil

/-- What a lane has gone through is the beginning of what its thread goes
through. -/
theorem log_prefix {final x : L → α × List Op} (h : OnCourse S.logged final later table x) (i : L) :
    (x i).2 <+: (final i).2 := by
  by_cases hi : ∃ e ∈ table, i ∈ e.1
  · obtain ⟨e, he, hmem⟩ := hi
    rw [← h.listed e he i hmem, Code.run_logged, Code.runAll_logged, List.append_assoc]
    exact List.prefix_append _ _
  · rw [← h.others i fun e he hmem => hi ⟨e, he, hmem⟩, Code.runAll_logged]
    exact List.prefix_append _ _

end OnCourse

end Table

end Simt
