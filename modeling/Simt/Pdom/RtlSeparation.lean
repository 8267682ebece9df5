import Simt.Pdom.RtlPaths

/-
When the RTL controller keeps every lane on one path.

A push and a pop in the same cycle keep the paths apart.  A push onto the empty
stack in the cycle that ends the active path does not: `path_done` sees the
stack empty before the edge and sets every bit of the mask over the ELSE lanes
that the same edge puts on the stack.
-/

namespace Simt
namespace Rtl
namespace PdomCtrl

variable {lanes pcW depth : Nat}

/-- The stack entries are non-empty and share no lane, and in `RUN` the current
mask is non-empty and shares none with them. -/
def Separated (c : PdomCtrl lanes pcW depth) : Prop :=
  (∀ e ∈ c.uStack.entries, e.1 ≠ 0) ∧
    c.uStack.entries.Pairwise (fun a b => a.1 &&& b.1 = 0) ∧
    (c.state = .run → c.currMask ≠ 0 ∧ ∀ e ∈ c.uStack.entries, c.currMask &&& e.1 = 0)

instance (c : PdomCtrl lanes pcW depth) : Decidable c.Separated :=
  have (m : BitVec lanes) : Decidable (∀ e ∈ c.uStack.entries, m &&& e.1 = 0) :=
    List.decidableBAll _ _
  have : Decidable (∀ e ∈ c.uStack.entries, e.1 ≠ 0) := List.decidableBAll _ _
  inferInstanceAs (Decidable (_ ∧ _ ∧ (_ → _)))

/-- A true divergence and `path_done` in one `RUN` cycle, on an empty stack. -/
def ReconvergesOverPush (c : PdomCtrl lanes pcW depth) (inp : PdomIn lanes pcW) : Prop :=
  c.state = .run ∧ inp.branchFire = true ∧ inp.pathDone = true ∧
    (c.thenMask inp ≠ 0 ∧ c.elseMask inp ≠ 0) ∧ c.uStack.empty = true

/-- The count is in range and no lane is on two paths. -/
def Valid (c : PdomCtrl lanes pcW depth) : Prop := c.Rep ∧ c.paths.Sound

theorem entries_apart {c : PdomCtrl lanes pcW depth} (hc : c.paths.Sound) :
    (∀ e ∈ c.uStack.entries, e.1 ≠ 0) ∧
      c.uStack.entries.Pairwise fun a b => a.1 &&& b.1 = 0 := by
  have hlist : c.paths.deferred.map Prod.fst =
      (c.uStack.entries.map Prod.fst).map (lanesOf lanes) := by
    simp [paths, entryPath, Function.comp_def]
  have happ : Apart (c.paths.deferred.map Prod.fst) := by
    have hsub : (c.paths.deferred.map Prod.fst).Sublist c.paths.masks := by
      rw [Paths.masks, List.map_append]
      exact (List.sublist_append_right _ _).cons _
    exact ⟨fun m hm => hc.1 m (hsub.subset hm), hc.2.sublist hsub⟩
  rw [hlist, apart_map_lanesOf fun m _ => below m] at happ
  refine ⟨fun e he => happ.1 _ (List.mem_map_of_mem he), ?_⟩
  exact List.pairwise_map.mp happ.2

theorem separated_of_valid {c : PdomCtrl lanes pcW depth} (hc : c.Valid) : c.Separated := by
  obtain ⟨hne, hpw⟩ := entries_apart hc.2
  refine ⟨hne, hpw, fun hs => ?_⟩
  have hm : c.paths.masks = (c.currMask :: c.uStack.entries.map Prod.fst).map (lanesOf lanes) := by
    simp [Paths.masks, paths, hs, entryPath, Function.comp_def]
  have happ := hc.2
  rw [Paths.Sound, hm, apart_map_lanesOf fun m _ => below m] at happ
  refine ⟨happ.1 _ List.mem_cons_self, fun e he => ?_⟩
  exact (List.pairwise_cons.mp happ.2).1 _ (List.mem_map_of_mem he)

/-- The condition on the registers as a condition on the paths. -/
theorem reconvergesOverPush_iff (hd : 1 ≤ depth) {c : PdomCtrl lanes pcW depth} (hc : c.Rep)
    (inp : PdomIn lanes pcW) :
    c.ReconvergesOverPush inp ↔
      c.paths.Collides depth (event inp) ∧ c.paths.deferred = [] := by
  rw [ReconvergesOverPush, Paths.Collides, resuming_eq_none, ← splits_iff, empty_iff_deferred hc]
  constructor
  · intro h
    obtain ⟨hs, hf, hdone, hsp, hnil⟩ := h
    exact ⟨⟨hs, hf, hdone, hsp, by rw [hnil]; exact hd⟩, hnil⟩
  · intro h
    obtain ⟨⟨hs, hf, hdone, hsp, -⟩, hnil⟩ := h
    exact ⟨hs, hf, hdone, hsp, hnil⟩

/-- After the collision the mask covers the entry it was pushed with. -/
theorem not_separated_of_reconvergesOverPush (hd : 1 ≤ depth) {c : PdomCtrl lanes pcW depth}
    (hc : c.Rep) {inp : PdomIn lanes pcW} (h : c.ReconvergesOverPush inp) :
    ¬ (c.posedge false inp).Separated := by
  obtain ⟨hcol, hnil⟩ := (reconvergesOverPush_iff hd hc inp).mp h
  obtain ⟨-, hpaths⟩ := posedge_spec hc inp
  rw [Paths.edgeStep_of_collides_nil hcol hnil] at hpaths
  obtain ⟨hact, hdef, hres⟩ := Paths.ext_iff'.mp hpaths
  intro hx
  obtain ⟨-, -, hrun⟩ := hx
  obtain ⟨-, hfar⟩ := hrun (resuming_eq_none.mp hres)
  have hmem : (c.paths.active \ (event inp).cond, (event inp).pc) ∈
      (c.posedge false inp).paths.deferred := by
    rw [hdef]
    exact List.mem_singleton_self _
  obtain ⟨e, he, hee⟩ := List.mem_map.mp hmem
  have hdisj := (disjoint_lanesOf (below (c.posedge false inp).currMask)).mpr (hfar e he)
  have hfst : lanesOf lanes e.1 = c.paths.active \ (event inp).cond := congrArg Prod.fst hee
  have htop : lanesOf lanes (c.posedge false inp).currMask = ⊤ := hact
  rw [htop, top_disjoint, hfst] at hdisj
  exact hcol.2.2.2.1.2 hdisj

/-- Along a run no lane is on two paths exactly as long as no true divergence
falls into a cycle that ends the last path. -/
theorem separated_iff (hl : 1 ≤ lanes) (hd : 1 ≤ depth) (u : Nat → PdomIn lanes pcW) (t : Nat) :
    (∀ s, s ≤ t → ((machine lanes pcW depth).stateAt u s).Separated) ↔
      ∀ s, s < t → ¬ ((machine lanes pcW depth).stateAt u s).ReconvergesOverPush (u s) := by
  have : Nonempty (Fin lanes) := ⟨⟨0, hl⟩⟩
  refine Mealy.forall_stateAt_iff (Q := Valid) (A := fun _ => True)
    (G := fun c inp => ¬ c.ReconvergesOverPush inp) ?_ ?_ (fun _ => separated_of_valid) ?_
    (fun _ => trivial) t
  · refine ⟨reset_rep, ?_⟩
    show (reset : PdomCtrl lanes pcW depth).paths.Sound
    rw [reset_paths]
    exact Paths.start_sound
  · intro c inp hc _ hok
    obtain ⟨hrep, hpaths⟩ := posedge_spec hc.1 inp
    refine ⟨hrep, ?_⟩
    show (c.posedge false inp).paths.Sound
    rw [hpaths]
    exact Paths.edgeStep_sound hc.2 fun h => hok ((reconvergesOverPush_iff hd hc.1 inp).mpr h)
  · intro c inp hc _ hbad
    exact not_separated_of_reconvergesOverPush hd hc.1 (not_not.mp hbad)

/-- A branch in cycle 0 and the end of its THEN path in cycle 4. -/
theorem separated_iff_split :
    ((machine 8 16 8).stateAt (fun t => ⟨t == 0, 0xCA, 0x300, t == 4⟩) 6).Separated :=
  (@separated_iff 8 16 8 (by decide) (by decide) _ 6).mpr
    (fun s _ h => by
      have h0 : s = 0 := by simpa using h.2.1
      have h4 : s = 4 := by simpa using h.2.2.1
      omega) 6 (Nat.le_refl 6)

/-- Two lanes diverge in the cycle their path ends.  Afterwards both lanes are
active and lane 1 is on the stack as well. -/
theorem diverge_and_done_overlap :
    ¬ ((machine 2 16 1).stateAt (fun _ => ⟨true, 1, 0, true⟩) 1).Separated := by
  decide

end PdomCtrl
end Rtl
end Simt
