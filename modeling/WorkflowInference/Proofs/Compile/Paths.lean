import WorkflowInference.Proofs.Compile.Reading
import WorkflowInference.Proofs.Compile.Dataflow

/-!
Paths of steps. A step inside workflows is told by the places of the steps on the way to it; written
out, the way is a path of names. Where names tell their places, two paths of names part where the
paths of places do, and a joined name belongs to one step.
-/
namespace WorkflowInference.Compile

open Result Namespaces Option PartTree
open List hiding partition

theorem paths_diverge (p q : List Nat) : (∃ l, q = p ++ l) ∨ (∃ i l, p = q ++ i :: l) ∨
    ∃ c i is j js, p = c ++ i :: is ∧ q = c ++ j :: js ∧ i ≠ j := by
  induction p generalizing q with
  | nil => exact .inl ⟨q, rfl⟩
  | cons i p ih =>
    cases q with
    | nil => exact .inr (.inl ⟨i, p, rfl⟩)
    | cons j q =>
      by_cases hij : i = j
      · subst hij
        rcases ih q with ⟨l, rfl⟩ | ⟨k, l, rfl⟩ | ⟨c, a, as, b, bs, rfl, rfl, hne⟩
        · exact .inl ⟨l, rfl⟩
        · exact .inr (.inl ⟨k, l, rfl⟩)
        · exact .inr (.inr ⟨i :: c, a, as, b, bs, rfl, rfl, hne⟩)
      · exact .inr (.inr ⟨[], i, p, j, q, rfl, rfl, hij⟩)

section Sub

variable {w v u : String × Doc} {is js : List Nat} {i : Nat}

theorem subAt_append (h : subAt w is = some v) : subAt w (is ++ js) = subAt v js := by
  induction is generalizing w with
  | nil =>
    cases h
    rfl
  | cons i is ih =>
    obtain ⟨u, hu, h⟩ := bind_eq_some_iff.mp h
    rw [cons_append, subAt, hu, bind_some, ih h]

theorem subAt_concat (h : subAt w is = some v) : subAt w (is ++ [i]) = innerAt v.2 i := by
  rw [subAt_append h, subAt]
  cases innerAt v.2 i <;> rfl

theorem subAt_of_append (h : subAt w (is ++ js) = some v) :
    ∃ u, subAt w is = some u ∧ subAt u js = some v := by
  induction is generalizing w with
  | nil => exact ⟨w, rfl, h⟩
  | cons i is ih =>
    obtain ⟨u, hu, h⟩ := bind_eq_some_iff.mp h
    obtain ⟨x, hx, hv⟩ := ih h
    exact ⟨x, by rw [subAt, hu, bind_some, hx], hv⟩

theorem lt_of_innerAt (h : innerAt w.2 i = some v) : i < (keysIn w.2).length := by
  obtain ⟨o, ho, hkey, -⟩ := innerAt_eq_some h
  rw [keysIn, ho]
  exact (List.getElem?_eq_some_iff.mp hkey).1

def pathsIn : Nat → String × Doc → List (List Nat)
  | 0, _ => []
  | n + 1, w => [] :: (range (keysIn w.2).length).flatMap fun i =>
      (innerAt w.2 i).elim [] fun v => (pathsIn n v).map (i :: ·)

def stepPaths (w : String × Doc) : List (List Nat) :=
  (pathsIn (w.2.depth + 1) w).flatMap fun is =>
    (subAt w is).elim [] fun v => (range (keysIn v.2).length).map fun i => is ++ [i]

theorem mem_pathsIn (hn : w.2.depth < n) (h : subAt w is = some v) : is ∈ pathsIn n w := by
  induction is generalizing w n with
  | nil =>
    obtain ⟨n, rfl⟩ : ∃ m, n = m + 1 := ⟨n - 1, by omega⟩
    exact mem_cons_self
  | cons i is ih =>
    obtain ⟨u, hu, h⟩ := bind_eq_some_iff.mp h
    obtain ⟨n, rfl⟩ : ∃ m, n = m + 1 := ⟨n - 1, by omega⟩
    have hdepth := innerAt_depth hu
    refine mem_cons_of_mem _ (mem_flatMap.mpr ⟨i, mem_range.mpr (lt_of_innerAt hu), ?_⟩)
    rw [hu]
    exact mem_map_of_mem (ih (by omega) h)

theorem mem_stepPaths (h : subAt w is = some v) (hi : i < (keysIn v.2).length) :
    is ++ [i] ∈ stepPaths w := by
  refine mem_flatMap.mpr ⟨is, mem_pathsIn (Nat.lt_succ_self _) h, ?_⟩
  rw [h]
  exact mem_map.mpr ⟨i, mem_range.mpr hi, rfl⟩

end Sub

structure Named (set : Setting) (w : String × Doc) : Prop where
  names : ∀ i < (keysIn w.2).length,
    nameOf set w i = stepName (Path.stem w.1) i ((keysIn w.2).getD i "")
  stem : Text.isPlain (Path.stem w.1)
  keys : ∀ i < (keysIn w.2).length, Text.isPlain ((keysIn w.2).getD i "") ∧
    (keysIn w.2).getD i "" ≠ ""

def pathNames (set : Setting) : String × Doc → List Nat → Namespaces
  | _, [] => []
  | w, i :: is => nameOf set w i :: (innerAt w.2 i).elim [] fun v => pathNames set v is

def pathStems : String × Doc → List Nat → List String
  | _, [] => []
  | w, i :: is => Path.stem w.1 :: (innerAt w.2 i).elim [] fun v => pathStems v is

def raisedName (set : Setting) (w : String × Doc) (js : List Nat) (i : Nat) (a : String) : String :=
  join (pathNames set w (js ++ [i]) ++ [a])

section Names

variable {set : Setting} {w v u : String × Doc} {is js : List Nat} {i j : Nat} {a x y : String}

theorem pathNames_append (h : subAt w is = some v) :
    pathNames set w (is ++ js) = pathNames set w is ++ pathNames set v js := by
  induction is generalizing w with
  | nil =>
    cases h
    rfl
  | cons i is ih =>
    obtain ⟨u, hu, h⟩ := bind_eq_some_iff.mp h
    simp only [cons_append, pathNames, hu, elim_some, ih h]

theorem pathNames_single (set : Setting) (w : String × Doc) (i : Nat) :
    pathNames set w [i] = [nameOf set w i] := by
  rw [pathNames]
  cases innerAt w.2 i <;> rfl

theorem raisedName_nil (set : Setting) (w : String × Doc) (i : Nat) (a : String) :
    raisedName set w [] i a = nameOf set w i ++ sep ++ a := by
  rw [raisedName, nil_append, pathNames_single, singleton_append, join_cons (by simp),
    join_singleton]

theorem raisedName_cons (h : innerAt w.2 j = some v) :
    raisedName set w (j :: js) i a = nameOf set w j ++ sep ++ raisedName set v js i a := by
  rw [raisedName, cons_append, pathNames, h, elim_some, cons_append, join_cons (by simp)]
  rfl

theorem Named.name_ne (h : Named set w) (hi : i < (keysIn w.2).length)
    (hj : j < (keysIn w.2).length) (hne : i ≠ j) : nameOf set w i ≠ nameOf set w j := by
  rw [h.names i hi, h.names j hj]
  exact fun heq => hne (stepName_inj heq).1

theorem partition_pathNames (hv : subAt w is = some v) (hnamed : Named set v)
    (hi : i < (keysIn v.2).length) (hj : j < (keysIn v.2).length) (hne : i ≠ j) (ks ls : List Nat) :
    (partition (pathNames set w (is ++ i :: ks)) (pathNames set w (is ++ j :: ls))).2 =
      pathNames set v (i :: ks) := by
  rw [pathNames_append hv, pathNames_append hv, partition_append_left, pathNames, pathNames,
    partition, if_neg (hnamed.name_ne hi hj hne)]

theorem stemsOf_pathNames (hnamed : ∀ ks u, subAt w ks = some u → Named set u)
    (hv : subAt w is = some v) (hi : i < (keysIn v.2).length)
    (h : stemsOf (pathNames set w (is ++ [i])) = .ok stems) : stems = pathStems w (is ++ [i]) := by
  have hread : ∀ {w : String × Doc} {i : Nat} {stem : String}, Named set w → i <
      (keysIn w.2).length → (do return (← StepName.read (nameOf set w i)).stem : Result String) =
      .ok stem → stem = Path.stem w.1 := by
    intro w i stem hw hi h
    obtain ⟨s, hs, h⟩ := of_bind h
    rw [hw.names i hi] at hs
    rw [← pure_eq_ok.mp h]
    exact StepName.read_stepName hw.stem (hw.keys i hi).1 hs
  have hall := mapM_eq_ok h
  clear h
  induction is generalizing w stems with
  | nil =>
    cases hv
    rw [nil_append, pathNames_single] at hall
    obtain ⟨stem, rest, hstem, hrest, rfl⟩ := forall₂_cons_left_iff.mp hall
    cases hrest
    rw [hread (hnamed [] _ rfl) hi hstem, nil_append, pathStems]
    cases innerAt v.2 i <;> rfl
  | cons j is ih =>
    obtain ⟨u, hu, hv⟩ := bind_eq_some_iff.mp hv
    rw [cons_append, pathNames, hu, elim_some] at hall
    obtain ⟨stem, rest, hstem, hrest, rfl⟩ := forall₂_cons_left_iff.mp hall
    have hinner : ∀ ks x, subAt u ks = some x → Named set x := fun ks x hx =>
      hnamed (j :: ks) x (by rw [subAt, hu, bind_some, hx])
    rw [hread (hnamed [] _ rfl) (lt_of_innerAt hu) hstem, ih hinner hv hrest, cons_append,
      pathStems, hu]
    rfl

theorem mem_pathStems (h : subAt w is = some v) (i : Nat) (ks : List Nat) :
    Path.stem v.1 ∈ pathStems w (is ++ i :: ks) := by
  induction is generalizing w with
  | nil =>
    cases h
    exact mem_cons_self
  | cons j is ih =>
    obtain ⟨u, hu, h⟩ := bind_eq_some_iff.mp h
    rw [cons_append, pathStems, hu]
    exact mem_cons_of_mem _ (ih h)

theorem mem_pathNames (hnamed : ∀ ks u, subAt w ks = some u → Named set u)
    (hv : subAt w is = some v) :
    ∀ n ∈ pathNames set w is, ∃ stem i key, n = stepName stem (i : Nat) key ∧ Text.isPlain stem ∧
      Text.isPlain key ∧ key ≠ "" := by
  induction is generalizing w with
  | nil => simp [pathNames]
  | cons j is ih =>
    obtain ⟨u, hu, hv⟩ := bind_eq_some_iff.mp hv
    have hw := hnamed [] w rfl
    intro n hn
    rw [pathNames, hu, elim_some] at hn
    rcases mem_cons.mp hn with rfl | hn
    · exact ⟨_, j, _, hw.names j (lt_of_innerAt hu), hw.stem, hw.keys j (lt_of_innerAt hu)⟩
    · exact ih (fun ks x hx => hnamed (j :: ks) x (by rw [subAt, hu, bind_some, hx])) hv n hn

theorem splitLast_raisedName (hnamed : ∀ ks u, subAt w ks = some u → Named set u)
    (hv : subAt w is = some v) (hi : i < (keysIn v.2).length) (ha : Text.contains a sep = false) :
    (splitLast (raisedName set w is i a)).1 = pathNames set w (is ++ [i]) := by
  have hlast := hnamed is v hv
  rw [raisedName, pathNames_append hv, pathNames_single, hlast.names i hi, splitLast_join ?_ ha]
  intro n hn
  rcases mem_append.mp hn with hn | hn
  · exact mem_pathNames hnamed hv n hn
  · exact ⟨_, i, _, mem_singleton.mp hn, hlast.stem, hlast.keys i hi⟩

theorem Named.own_inj (h : Named set w) (hi : i < (keysIn w.2).length)
    (hj : j < (keysIn w.2).length) (heq : nameOf set w i ++ sep ++ x = nameOf set w j ++ sep ++ y) :
    i = j ∧ x = y := by
  rw [h.names i hi, h.names j hj, String.append_assoc, String.append_assoc] at heq
  obtain ⟨rfl, heq⟩ := stepName_append_inj heq
  refine ⟨rfl, ?_⟩
  have hchars := congrArg String.toList heq
  rw [← String.toList_inj]
  simpa using hchars

theorem raisedName_eq_own (hw : Named set w) (hv : subAt w is = some v)
    (hi : i < (keysIn v.2).length) (hj : j < (keysIn w.2).length)
    (h : raisedName set w is i a = nameOf set w j ++ sep ++ b) :
    (is = [] ∧ i = j ∧ a = b) ∨
      ∃ ks u, is = j :: ks ∧ innerAt w.2 j = some u ∧ subAt u ks = some v ∧
      raisedName set u ks i a = b := by
  cases is with
  | nil =>
    cases hv
    rw [raisedName_nil] at h
    obtain ⟨rfl, rfl⟩ := hw.own_inj hi hj h
    exact .inl ⟨rfl, rfl, rfl⟩
  | cons k is =>
    obtain ⟨u, hu, hv⟩ := bind_eq_some_iff.mp hv
    rw [raisedName_cons hu] at h
    obtain ⟨rfl, rfl⟩ := hw.own_inj (lt_of_innerAt hu) hj h
    exact .inr ⟨is, u, rfl, hu, hv, rfl⟩

theorem raisedName_head (hv : subAt w is = some v) (hi : i < (keysIn v.2).length) :
    ∃ k < (keysIn w.2).length, ∃ rest, raisedName set w is i a = nameOf set w k ++ sep ++ rest := by
  cases is with
  | nil =>
    cases hv
    exact ⟨i, hi, a, raisedName_nil set _ i a⟩
  | cons k is =>
    obtain ⟨u, hu, -⟩ := bind_eq_some_iff.mp hv
    exact ⟨k, lt_of_innerAt hu, _, raisedName_cons hu⟩

theorem Named.stem_eq (hw : Named set w) (hu : Named set u) (hi : i < (keysIn w.2).length)
    (hj : j < (keysIn u.2).length) (h : nameOf set w i ++ sep ++ x = nameOf set u j ++ sep ++ y) :
    Path.stem w.1 = Path.stem u.1 := by
  rw [hw.names i hi, hu.names j hj, String.append_assoc, String.append_assoc] at h
  exact stepName_append_stem hw.stem hu.stem h

end Names

structure Transparent (set : Setting) (w : String × Doc) : Prop where
  known : ∀ id ∈ toolIds w.2, set.tools.has id
  global : ∀ id ∈ toolIds w.2, id.space = globalSpace
  outputs : under? w.2 "outputs" = none

section Once

variable {set : Setting} {run : OnceRun sub set t r}

theorem Transparent.placedRun (h : Transparent set t.flow) (run : OnceRun sub set t r) :
    PlacedRun run :=
  Compile.placedRun run (.inr h.global) h.known

theorem OnceRun.nameOf_eq (run : OnceRun sub set t r)
    (hknown : ∀ id ∈ toolIds t.yml, set.tools.has id) (hi : i < (keysIn t.yml).length) :
    nameOf set t.flow i = stepName run.scope.stem i (run.scope.keys.getD i "") := by
  rw [run.keysIn_eq] at hi
  obtain ⟨place⟩ := run.placeAt hi
  rw [← place.here.site_nameOf, place.here.site_name hknown]

theorem OnceRun.key_ne (run : OnceRun sub set t r) (hi : i < run.start.keys.length) :
    run.start.keys.getD i "" ≠ "" := by
  obtain ⟨place⟩ := run.placeAt hi
  have hkey : run.start.keys.getD i "" = place.here.key := by
    rw [getD_of_getElem? place.here.key_eq]
  rw [hkey]
  rcases place.here.head.brought_cases with ⟨⟨inner⟩⟩ | ⟨⟨tool⟩⟩
  · intro hempty
    have hsub := inner.isSub
    rw [hempty] at hsub
    cases hsub
  · -- at the end the step is asked for its identifier, which it had from the start
    obtain ⟨step, hstep⟩ := run.exists_step hi
    obtain ⟨noted, -, h⟩ := of_bind (run.naming_at hstep).2
    obtain ⟨id, hid, -⟩ := of_bind h
    obtain ⟨hid, hne⟩ := requireId_eq_ok hid
    rw [place.later.steps i (Nat.le_refl i), place.here.head.kept_field (by decide),
      tool.brought] at hid
    change under? (place.before.step i) "id" = _ at hid
    rw [place.here.awaits.step, getD_eq_getElem?_getD] at hid
    have hkeys : (run.start.steps[i]?).map Workflow.stepKey = some (.str place.here.key) := by
      rcases (openWorkflow_opens run.opening).keys with hnil | hkeys
      · rw [hnil] at hid
        cases hid
      · rw [← getElem?_map, hkeys, getElem?_map, place.here.key_eq, map_some]
    obtain ⟨x, hx, hkey⟩ := map_eq_some_iff.mp hkeys
    rw [hx, getD_some] at hid
    rw [stepKey_eq hid] at hkey
    rw [← Doc.str.inj hkey]
    exact hne

end Once

theorem PartTree.at?_append {q p : PartTree} {is : List Nat} (h : q.at? is = some p)
    (js : List Nat) : q.at? (is ++ js) = p.at? js := by
  induction is generalizing q with
  | nil =>
    cases h
    rfl
  | cons i is ih =>
    obtain ⟨s, hs, h⟩ := bind_eq_some_iff.mp h
    rw [cons_append, at?, hs, bind_some, ih h]

theorem PartTree.provenance_leaf {p : PartTree} {o : String} (hleaf : p.subs = [])
    (ho : o ∈ outputTexts p.part.cwl) : p.provenance o = some ([], o) := by
  obtain ⟨part, subs⟩ := p
  cases hleaf
  change o ∈ outputTexts part.cwl at ho
  rw [provenance, if_pos ho]

section Nested

variable {set : Setting} {n : Nat} {t : Task} {r : Compiled}

theorem Faithful.named (h : Faithful set n t r)
    (hknown : ∀ is w, subAt t.flow is = some w → ∀ id ∈ toolIds w.2, set.tools.has id) :
    ∀ is w, subAt t.flow is = some w → ∀ i < (keysIn w.2).length,
      nameOf set w i = stepName (Path.stem w.1) i ((keysIn w.2).getD i "") ∧
      (keysIn w.2).getD i "" ≠ "" := by
  intro is w hw i hi
  obtain ⟨m, u, s, -, ⟨run⟩, rfl, -⟩ := h.atPath hw
  rw [run.nameOf_eq (hknown is u.flow hw) hi, run.keysIn_eq]
  rw [run.keysIn_eq] at hi
  exact ⟨rfl, run.key_ne hi⟩

theorem Faithful.provenance (h : Faithful set n t r)
    (hclear : ∀ is w, subAt t.flow is = some w → Transparent set w) (hw : subAt t.flow is = some w)
    (hi : i < (keysIn w.2).length) (hp : r.tree.at? (is ++ [i]) = some p) (hleaf : p.subs = [])
    (ho : o ∈ outputTexts p.part.cwl) :
    r.tree.provenance (raisedName set t.flow is i o) = some (is ++ [i], o) ∧
      raisedName set t.flow is i o ∈ outputTexts r.tree.part.cwl := by
  -- from the tool outwards, one workflow at a time
  have hstep : ∀ {n : Nat} {t : Task} {r : Compiled}, Faithful set n t r →
      Transparent set t.flow → ∀ {m : Nat} {q : PartTree} {x : String}, m < (keysIn t.yml).length →
      r.tree.subs[m]? = some q → x ∈ outputTexts q.part.cwl → r.tree.provenance
      (nameOf set t.flow m ++ sep ++ x) = (q.provenance x).map (fun y => (m :: y.1, y.2)) ∧
      nameOf set t.flow m ++ sep ++ x ∈ outputTexts r.tree.part.cwl := by
    intro n t r h hclear m q x hm hq hx
    obtain ⟨n, rfl⟩ := compileAt_succ h.yields
    obtain ⟨run⟩ := h.once
    have hplaced := hclear.placedRun run
    rw [run.nameOf_eq hclear.known hm]
    rw [run.keysIn_eq] at hm
    have hno : (under? t.yml "outputs").getD (.map []) = .map [] := by
      rw [hclear.outputs, getD_none]
    refine ⟨hplaced.provenance_eq hno hm hq hx, ?_⟩
    obtain ⟨tool, q', htool, hq', hcwl⟩ := run.runAt_eq hm
    rw [hq] at hq'
    cases hq'
    rw [hcwl] at hx
    exact mem_outputTexts_of_outputSource (hplaced.outputSource_eq hno hm htool hx)
  induction is generalizing n t r with
  | nil =>
    cases hw
    rw [nil_append, at?] at hp
    obtain ⟨q, hq, hp⟩ := bind_eq_some_iff.mp hp
    cases hp
    rw [raisedName_nil]
    obtain ⟨hprov, hmem⟩ := hstep h (hclear [] _ rfl) hi hq ho
    refine ⟨?_, hmem⟩
    rw [hprov, provenance_leaf hleaf ho]
    rfl
  | cons k is ih =>
    obtain ⟨v, hv, hw⟩ := bind_eq_some_iff.mp hw
    obtain ⟨n, rfl⟩ := compileAt_succ h.yields
    obtain ⟨u, s, hs, hq, rfl⟩ := h.inner hv
    rw [cons_append, at?, hq, bind_some] at hp
    have hinner : ∀ js x, subAt u.flow js = some x → Transparent set x := fun js x hx =>
      hclear (k :: js) x (by rw [subAt, hv, bind_some, hx])
    obtain ⟨hprov, hmem⟩ := ih hs hinner hw hp
    have hk : k < (keysIn t.yml).length := lt_of_innerAt (w := t.flow) hv
    rw [raisedName_cons hv]
    obtain ⟨houter, hmem⟩ := hstep h (hclear [] _ rfl) hk hq hmem
    refine ⟨?_, hmem⟩
    rw [houter, hprov]
    rfl

end Nested

end WorkflowInference.Compile
