import WorkflowInference.Proofs.Assembly.Compiled
import WorkflowInference.Proofs.Assembly.Links

/-!
What the steps of a workflow run once it is compiled. All tools of the steps go into one registry,
in which a later one takes the place of an earlier one under the same name.
-/
namespace WorkflowInference

open List

namespace Registry

variable {r : Registry} {id : StepId} {cwl : Doc} {α : Type}

theorem get?_enter (r : Registry) (id id' : StepId) (t : Tool) :
    (enter r id t).get? id' = if id = id' then some t else r.get? id' := by
  fun_induction enter r id t with
  | case1 => rfl
  | case2 =>
    rw [get?, get?]
    split <;> rfl
  | case3 k _ _ hk ih =>
    rw [get?, get?, ih]
    rcases eq_or_ne k id' with rfl | hk'
    · simp [Ne.symm hk]
    · simp [hk']

def Gives (r : Registry) (id : StepId) (cwl : Doc) : Prop := ∃ path, r.get? id = some ⟨path, cwl⟩

theorem Gives.enter (h : r.Gives id cwl ∨ k = id) (ht : k = id → t.cwl = cwl) :
    (r.enter k t).Gives id cwl := by
  rw [Gives, get?_enter]
  by_cases hk : k = id
  · exact ⟨t.runPath, by rw [if_pos hk, ← ht hk]⟩
  · rw [if_neg hk]
    exact h.resolve_right hk

theorem Gives.foldl {f : Registry → α → Registry} {as : List α} (h : r.Gives id cwl)
    (hf : ∀ r, ∀ a ∈ as, r.Gives id cwl → (f r a).Gives id cwl) : (as.foldl f r).Gives id cwl := by
  induction as generalizing r with
  | nil => exact h
  | cons a as ih => exact ih (hf r a mem_cons_self h) fun r b hb => hf r b (mem_cons_of_mem a hb)

theorem Gives.foldl_of_mem {f : Registry → α → Registry} {as : List α} {a : α} (ha : a ∈ as)
    (hmade : ∀ r, (f r a).Gives id cwl)
    (hf : ∀ r, ∀ a ∈ as, r.Gives id cwl → (f r a).Gives id cwl) : (as.foldl f r).Gives id cwl := by
  obtain ⟨before, after, rfl⟩ := append_of_mem ha
  rw [foldl_append, foldl_cons]
  exact (hmade _).foldl fun r b hb => hf r b (mem_append_right _ (mem_cons_of_mem a hb))

end Registry

namespace Assembly

open Compile

namespace Scene

variable {s : Scene} {i j : Nat} {p : Process} {part : StepPart}

def toolEntries (p : Process) : List (StepId × Doc) :=
  match p.content with
  | .step part => (⟨p.name, globalSpace⟩, part.tool) :: part.registry.map fun e => (e.1, e.2.cwl)
  | .workflow _ => []

/-- No step brings another tool under the name of a step, and the name of a step is all of its stem.
-/
structure ToolsApart (s : Scene) (i : Nat) : Prop where
  stem : ∀ p ∈ s.steps i, Path.stem p.name = p.name
  tools : ∀ p ∈ s.steps i, ∀ part, p.content = .step part → ∀ q ∈ s.steps i, ∀ e ∈ toolEntries q,
    e.1 = ⟨p.name, globalSpace⟩ → e.2 = part.tool

variable {H : String → OutputRef → Prop} {ks : List Nat}

theorem ToolsApart.of_nodup (hstem : ∀ p ∈ s.steps i, Path.stem p.name = p.name)
    (h : (((s.steps i).flatMap toolEntries).map (·.1)).Nodup) : s.ToolsApart i := by
  refine ⟨hstem, fun p hp part hpart q hq e he hid => ?_⟩
  have hown : ((⟨p.name, globalSpace⟩, part.tool) : StepId × Doc) ∈ toolEntries p := by
    rw [toolEntries, hpart]
    exact mem_cons_self
  have hentry :=
    inj_on_of_nodup_map h (mem_flatMap.mpr ⟨q, hq, he⟩) (mem_flatMap.mpr ⟨p, hp, hown⟩) hid
  rw [hentry]

theorem ToolsApart.knownTools (h : s.ToolsApart i) (hp : p ∈ s.steps i)
    (hpart : p.content = .step part) :
    (s.knownTools i []).Gives ⟨p.name, globalSpace⟩ part.tool := by
  rw [Scene.knownTools, foldl_nil]
  have hentry : ∀ a ∈ (s.steps i).filterMap (fun p => match p.content with
      | .step part => some (p, part)
      | .workflow _ =>
        none), ∀ e ∈ (⟨⟨a.1.name, globalSpace⟩, a.2.tool⟩ :: a.2.registry.map fun e =>
          (e.1, e.2.cwl)),
      e.1 = ⟨p.name, globalSpace⟩ → e.2 = part.tool := by
    intro a ha e he
    obtain ⟨q, hq, hqa⟩ := mem_filterMap.mp ha
    refine h.tools p hp part hpart q hq e ?_
    cases hcontent : q.content with
    | workflow cs => simp [hcontent] at hqa
    | step b =>
      simp only [hcontent, Option.some.injEq] at hqa
      subst hqa
      rw [toolEntries, hcontent]
      exact he
  refine Registry.Gives.foldl (Registry.Gives.foldl_of_mem (a := (p, part)) ?_ ?_ ?_) ?_
  · exact mem_filterMap.mpr ⟨p, hp, by rw [hpart]⟩
  · exact fun r => .enter (.inr rfl) fun _ => rfl
  · exact fun r a ha hr => .enter (.inl hr) (hentry a ha _ mem_cons_self)
  · refine fun r a ha hr => hr.foldl fun r e he hr => .enter (.inl hr) fun hid => ?_
    exact hentry a ha (e.1, e.2.cwl) (mem_cons_of_mem _ (mem_map_of_mem he)) hid

theorem mem_stepsTo (hs : s.Sound H) (hn : i < n) (hj : s.at? i ks = some j)
    (hp : s.process? j = some p) (hstep : p.isStep) : p ∈ s.stepsTo n i := by
  induction ks generalizing i n with
  | nil =>
    cases hj
    obtain - | n := n
    · omega
    rw [stepsTo, hp]
    simp [hstep]
  | cons k ks ih =>
    obtain - | n := n
    · omega
    obtain ⟨q, hq, hj⟩ := Option.bind_eq_some_iff.mp hj
    obtain ⟨c, hc, hj⟩ := Option.bind_eq_some_iff.mp hj
    rw [stepsTo, hq]
    simp only [isStep_of_child hc, Bool.false_eq_true, if_false]
    have hlt := (hs i q hq).children c (mem_of_getElem? hc)
    exact mem_flatten.mpr ⟨_, mem_map.mpr ⟨c, mem_of_getElem? hc, rfl⟩, ih (by omega) hj⟩

theorem ToolsApart.known (h : s.ToolsApart i) (hs : s.Sound H) (hq : s.process? i = some q)
    (hj : s.at? i ks = some j) (hp : s.process? j = some p) : p.Known (s.knownTools i []) := by
  intro part hpart
  have hlt : i < s.depthBound := Nat.lt_succ_of_lt (List.getElem?_eq_some_iff.mp hq).1
  have hmem : p ∈ s.steps i := mem_stepsTo hs hlt hj hp (by rw [Process.isStep, hpart])
  rw [h.stem p hmem]
  exact h.knownTools hmem hpart

end Scene

theorem embedded_of_withEmbedded {q full : PartTree} (h : q.withEmbedded = .ok full) :
    q.embedded = .ok full.part.cwl := by
  obtain ⟨part, ts⟩ := q
  obtain ⟨d, hd, h⟩ := Result.of_bind h
  rw [hd, ← Result.pure_eq_ok.mp h]
  rfl

/-- Each step of a compiled workflow, on all levels, holds the tool of the step that was put there.
-/
theorem steps_run_own_tools (session : Session) (cs : List Doc)
    (hpublic : ∀ c ∈ cs, (Command.ofDoc c).isPublic = true) {i : Nat}
    (hapart : (build session cs).2.ToolsApart i) {tree full : PartTree} {t : Scene}
    (htree : (Assemble.compileTree i []).outcome (build session cs).2 = (.ok tree, t))
    (hfull : tree.withEmbedded = .ok full) {k : Nat} {ks : List Nat} {leaf : PartTree}
    (hat : tree.at? (k :: ks) = some leaf) (hleaf : leaf.subs = []) :
    ∃ j p part, (build session cs).2.at? i (k :: ks) = some j ∧
      (build session cs).2.process? j = some p ∧
      p.content = .step part ∧ runAt full.part.cwl (k :: ks) = some (bare part.tool) := by
  have hs : (build session cs).2.Sound fun _ _ => True :=
    (build_sound hpublic fun _ _ _ _ _ _ _ _ _ _ => trivial).1
  obtain ⟨p, doc, r, hp, -, hdoc, hstep, hrun, rfl⟩ := (Scene.compileTree_ends []).ok htree
  have hroot : (build session cs).2.Compiles _ p r.tree :=
    .workflow (t := Scene.rootTask p doc) hstep hdoc hrun
  obtain ⟨j, w, hj, hw, hcompiles, hruns⟩ :=
    hroot.at_path hs rfl (fun _ _ _ hj hw => hapart.known hs hp hj hw) hp hat
  obtain ⟨d, hd, hrunAt⟩ := hruns _ (embedded_of_withEmbedded hfull)
  rw [runAt_bare] at hrunAt
  cases hcompiles with
  | step hcontent hcwl _ =>
    exact ⟨j, w, _, hj, hw, hcontent, by rw [hrunAt, embedded_leaf hd hleaf, hcwl]⟩
  | workflow _ _ hrun' =>
    exact absurd hleaf (Faithful.subs_ne ⟨hrun', compileAt_unaltered rfl hrun'⟩)

namespace Sample

def toolStep (id name command : String) : Doc :=
  .list [.str "step", .str id, passing command, Doc.obj [("process_name", .str name)]]

def give (id value : String) : Doc :=
  .list [.str "bind", .str id, .str "x", .list [.str "lit", .str value]]

def paired (name name' : String) : List Doc :=
  [toolStep "s" name "head", toolStep "t" name' "tail", give "s" "v", give "t" "v",
    newWorkflow "first" ["s"], newWorkflow "second" ["t"], newWorkflow "both" ["first", "second"]]

def compiled (s : Scene) (i : Nat) : Option PartTree :=
  ((Assemble.compileTree i []).outcome s).1.toOption

theorem outcome_compiled (h : compiled s i = some tree) :
    (Assemble.compileTree i []).outcome s = (.ok tree, ((Assemble.compileTree i []).outcome s).2) :=
  Prod.ext (Result.toOption_eq_some.mp h) rfl

end Sample

open Sample in
theorem steps_run_own_tools_paired :
    ∃ tree full leaf j p part, compiled (scene (paired "a" "b")) 4 = some tree ∧
      tree.withEmbedded = .ok full ∧ tree.at? [1, 0] = some leaf ∧ leaf.subs = [] ∧
      (scene (paired "a" "b")).at? 4 [1, 0] = some j ∧ (scene (paired "a" "b")).process? j =
      some p ∧ p.content = .step part ∧ runAt full.part.cwl [1, 0] = some (bare part.tool) := by
  have hall : (∀ c ∈ paired "a" "b", (Command.ofDoc c).isPublic = true) ∧
      (∀ p ∈ (scene (paired "a" "b")).steps 4, Path.stem p.name = p.name) ∧
      ((((scene (paired "a" "b")).steps 4).flatMap Scene.toolEntries).map (·.1)).Nodup ∧
      ((compiled (scene (paired "a" "b")) 4).any fun tree => tree.withEmbedded.toOption.isSome &&
        (tree.at? [1, 0]).any (·.subs.isEmpty)) = true := by decide +kernel
  obtain ⟨hpublic, hstem, hnodup, hcompiled⟩ := hall
  obtain ⟨tree, htree, hrest⟩ := (Option.any_eq_true _ _).mp hcompiled
  obtain ⟨hfull, hat⟩ := Bool.and_eq_true_iff.mp hrest
  obtain ⟨full, hfull⟩ := Option.isSome_iff_exists.mp hfull
  obtain ⟨leaf, hat, hleaf⟩ := (Option.any_eq_true _ _).mp hat
  rw [List.isEmpty_iff] at hleaf
  rw [Result.toOption_eq_some] at hfull
  have htools := @steps_run_own_tools session (paired "a" "b") hpublic
  rw [build_eq_scene] at htools
  obtain ⟨j, p, part, hj, hp, hpart, hrun⟩ :=
    htools (.of_nodup hstem hnodup) (outcome_compiled htree) hfull hat hleaf
  exact ⟨tree, full, leaf, j, p, part, htree, hfull, hat, hleaf, hj, hp, hpart, hrun⟩

end Assembly

end WorkflowInference
