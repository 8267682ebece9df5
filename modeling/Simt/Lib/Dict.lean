import Mathlib.Data.List.Basic
import Mathlib.Tactic.TypeStar

/-
Dictionaries that keep the order in which their keys came in.
-/

namespace Simt

/-- Keys with their values, in the order in which the keys came in. -/
abbrev Dict (κ α : Type*) := List (κ × α)

namespace Dict

variable {κ α : Type*} [DecidableEq κ]

/-- `d[k] = v`. -/
def set (k : κ) (v : α) : Dict κ α → Dict κ α
  | [] => [(k, v)]
  | e :: d => if e.1 = k then (k, v) :: d else e :: set k v d

/-- `d.get(k)`. -/
def get (k : κ) : Dict κ α → Option α
  | [] => none
  | e :: d => if e.1 = k then some e.2 else get k d

theorem set_of_not_mem {k : κ} {v : α} {d : Dict κ α} (h : k ∉ d.map Prod.fst) :
    set k v d = d ++ [(k, v)] := by
  induction d with
  | nil => rfl
  | cons e d ih =>
    obtain ⟨he, hd⟩ := List.ne_and_not_mem_of_not_mem_cons h
    rw [set, if_neg (Ne.symm he), ih hd, List.cons_append]

theorem get_of_mem {k : κ} {v : α} {d : Dict κ α} (hd : (d.map Prod.fst).Nodup)
    (h : (k, v) ∈ d) : get k d = some v := by
  induction d with
  | nil => exact absurd h List.not_mem_nil
  | cons e d ih =>
    obtain ⟨he, hd⟩ := List.nodup_cons.mp hd
    rcases List.mem_cons.mp h with rfl | h
    · rw [get, if_pos rfl]
    · have hne : e.1 ≠ k := by
        intro hk
        exact he (List.mem_map.mpr ⟨(k, v), h, hk.symm⟩)
      rw [get, if_neg hne, ih hd h]

/-- Setting new keys one after the other appends them. -/
theorem foldl_set {d l : Dict κ α} (h : (d ++ l).map Prod.fst |>.Nodup) :
    l.foldl (fun d e => set e.1 e.2 d) d = d ++ l := by
  induction l generalizing d with
  | nil => exact (List.append_nil d).symm
  | cons e l ih =>
    have hnew : e.1 ∉ d.map Prod.fst := by
      intro hmem
      rw [List.map_append, List.map_cons] at h
      exact (List.nodup_append.mp h).2.2 _ hmem _ List.mem_cons_self rfl
    have hassoc : d ++ [e] ++ l = d ++ e :: l := by
      rw [List.append_assoc, List.singleton_append]
    rw [List.foldl_cons, set_of_not_mem hnew, ih (by rw [hassoc]; exact h), hassoc]

/-! ## A loop that fills a dictionary

The loop goes through the keys, sets each to the value of `step` and passes a
state on. -/

section Fill

variable {σ : Type*} {step : κ → σ → Option (α × σ)}

/-- The loop over the keys from the dictionary `d` and the state `s`. -/
def fill (step : κ → σ → Option (α × σ)) : List κ → Dict κ α → σ → Option (Dict κ α × σ)
  | [], d, s => some (d, s)
  | k :: ks, d, s => (step k s).bind fun r => fill step ks (d.set k r.1) r.2

variable {ks : List κ} {d : Dict κ α} {s : σ} {r : Dict κ α × σ}

/-- New keys come in one by one, each with a value of its step. -/
theorem fill_entries {P : κ → α → Prop} (hks : (d.map Prod.fst ++ ks).Nodup)
    (hstep : ∀ k ∈ ks, ∀ s r, step k s = some r → P k r.1) (h : fill step ks d s = some r) :
    ∃ entries : Dict κ α, entries.map Prod.fst = ks ∧ (∀ e ∈ entries, P e.1 e.2) ∧
      r.1 = d ++ entries := by
  induction ks generalizing d s with
  | nil =>
    obtain rfl := Option.some.inj h
    exact ⟨[], rfl, fun e he => absurd he List.not_mem_nil, (List.append_nil d).symm⟩
  | cons k ks ih =>
    obtain ⟨hk, hrest⟩ := List.forall_mem_cons.mp hstep
    rw [fill] at h
    obtain ⟨q, hq, h⟩ := Option.bind_eq_some_iff.mp h
    have hnew : k ∉ d.map Prod.fst := fun hmem =>
      (List.nodup_append.mp hks).2.2 _ hmem _ List.mem_cons_self rfl
    rw [set_of_not_mem hnew] at h
    have hassoc : (d ++ [(k, q.1)]).map Prod.fst ++ ks = d.map Prod.fst ++ k :: ks := by
      rw [List.map_append, List.append_assoc]
      rfl
    obtain ⟨entries, hkeys, hentries, hr⟩ := ih (by rw [hassoc]; exact hks) hrest h
    refine ⟨(k, q.1) :: entries, by rw [List.map_cons, hkeys], ?_, ?_⟩
    · exact List.forall_mem_cons.mpr ⟨hk s q hq, hentries⟩
    · rw [hr, List.append_assoc]
      rfl

theorem fill_eq_map {f : κ → α} (hks : ks.Nodup)
    (hstep : ∀ k ∈ ks, ∀ s r, step k s = some r → r.1 = f k) (h : fill step ks [] s = some r) :
    r.1 = ks.map fun k => (k, f k) := by
  obtain ⟨entries, hkeys, hentries, hr⟩ := fill_entries (P := fun k v => v = f k) (d := []) hks
    hstep h
  rw [hr, List.nil_append, ← hkeys, List.map_map]
  conv_lhs => rw [← List.map_id entries]
  exact List.map_congr_left fun e he => Prod.ext rfl (hentries e he)

theorem fill_state {g : κ → σ → σ}
    (hstep : ∀ k ∈ ks, ∀ s r, step k s = some r → r.2 = g k s) (h : fill step ks d s = some r) :
    r.2 = ks.foldl (fun s k => g k s) s := by
  induction ks generalizing d s with
  | nil =>
    obtain rfl := Option.some.inj h
    rfl
  | cons k ks ih =>
    obtain ⟨hk, hrest⟩ := List.forall_mem_cons.mp hstep
    rw [fill] at h
    obtain ⟨q, hq, h⟩ := Option.bind_eq_some_iff.mp h
    rw [List.foldl_cons, ← hk s q hq]
    exact ih hrest h

theorem isSome_fill (hstep : ∀ k ∈ ks, ∀ s, (step k s).isSome = true) :
    (fill step ks d s).isSome = true := by
  induction ks generalizing d s with
  | nil => rfl
  | cons k ks ih =>
    obtain ⟨hk, hrest⟩ := List.forall_mem_cons.mp hstep
    obtain ⟨q, hq⟩ := Option.isSome_iff_exists.mp (hk s)
    rw [fill, hq, Option.bind_some]
    exact ih hrest

end Fill

end Dict
end Simt
