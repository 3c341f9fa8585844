import WorkflowInference.Proofs.Compile.Binding

/-!
What the compilation of one step writes, and the drafts that the compilation of a step and of a
workflow goes through. Each part of it changes the document of that step only, and of the rest of
the draft what is said here.
-/
namespace WorkflowInference.Compile

open Entries Result Logged List Draft
open Workflow (addIn addOut)

section Writes

variable {acc r : Draft × List Doc}
variable {s : Site} {c : Scope}

namespace Draft

variable {d e : Draft} {i : Nat}

@[simp] theorem setStep_setStep (s t : Doc) : (d.setStep i s).setStep i t = d.setStep i t := by
  simp [setStep]

theorem setStep_step : d.setStep i (d.step i) = d := by
  have hset : d.steps.set i (d.steps.getD i .null) = d.steps := by
    by_cases hi : i < d.steps.length
    · rw [getD_of_getElem? (getElem?_eq_getElem hi), set_getElem_self]
    · rw [set_eq_of_length_le (by omega)]
  rw [setStep, step, hset]

theorem lt_length_of_step (h : d.step i = .map es) : i < d.steps.length := by
  by_contra hlt
  rw [step, getD_eq_getElem?_getD, getElem?_eq_none (by omega)] at h
  cases h

theorem setPart_spec (h : d.setPart i k v = .ok e) :
    i < d.steps.length ∧ ∃ fs, e = d.setStep i (.map fs) ∧ get? fs k = some v ∧
      ∀ l, l ≠ k → get? fs l = under? (d.step i) l := by
  obtain ⟨es, hes, rfl⟩ := setPart_eq_ok h
  refine ⟨lt_length_of_step hes, _, rfl, by simp, ?_⟩
  intro l hl
  simp [hes, get?_put_ne hl.symm]

end Draft

variable {xs : List Doc} {i : Nat} {d : Draft}

theorem holds_map (h : (Doc.map es).holds k = .ok b) : (get? es k).isSome = b := by
  simpa [Doc.holds, has] using h

theorem bindings_congr {s t : Doc} (h : under? s "in" = under? t "in") :
    bindings s = bindings t := by
  simp only [bindings, h]

theorem not_any_of_not_mem (h : .str a ∉ xs) : xs.any (· == .str a) = false := by
  rw [Bool.eq_false_iff, Ne, any_eq_true]
  rintro ⟨x, hx, heq⟩
  rw [Doc.beq_str_iff] at heq
  exact h (heq ▸ hx)

theorem setRun_spec (h : setRun c name i b tool d = .ok d') :
    i < d.steps.length ∧ ∃ fs, d' = d.setStep i (.map fs) ∧
      get? fs "in" = some ((under? (d.step i) "in").getD (.map [])) ∧
      (∀ s, get? fs "run" = some (.str s) → s = runPath c name b tool) ∧
      ∀ l, l ≠ "run" → l ≠ "in" → get? fs l = under? (d.step i) l := by
  obtain ⟨run, hrun, d₁, hd₁, stated, hstated, h⟩ := of_bind₃ h
  obtain ⟨es, hes⟩ := fieldD_map hrun
  have hi := lt_length_of_step hes
  have hfs : ∃ fs, d₁ = d.setStep i (.map fs) ∧
      (∀ s, get? fs "run" = some (.str s) → s = runPath c name b tool) ∧
      ∀ l, l ≠ "run" → get? fs l = under? (d.step i) l := by
    split at hd₁
    · obtain ⟨-, fs, hfs, hself, hrest⟩ := setPart_spec hd₁
      refine ⟨fs, hfs, fun s hs => ?_, hrest⟩
      rw [hself] at hs
      cases hs
      rfl
    · rename_i hstr
      cases hd₁
      refine ⟨es, by rw [← hes, setStep_step], fun s hs => ?_, fun l _ => by rw [hes, under?_map]⟩
      rw [fieldD_eq_ok hrun, hes, under?_map, hs] at hstr
      exact absurd rfl hstr
  obtain ⟨fs, rfl, hpath, hfs⟩ := hfs
  rw [step_setStep _ hi] at hstated
  have hin := hfs "in" (by decide)
  refine ⟨hi, ?_⟩
  split at h
  · rename_i hst
    obtain ⟨v, hv⟩ := Option.isSome_iff_exists.mp ((holds_map hstated).trans hst)
    rw [← pure_eq_ok.mp h]
    exact ⟨fs, rfl, by rw [← hin, hv, Option.getD_some], hpath, fun l hl _ => hfs l hl⟩
  · rename_i hst
    have hnone : get? fs "in" = none := by simpa [hst] using holds_map hstated
    obtain ⟨-, gs, rfl, hgs, hrest⟩ := setPart_spec h
    rw [step_setStep _ hi] at hrest
    refine ⟨gs, setStep_setStep .., by
      rw [hgs, ← hin, hnone, Option.getD_none], fun s hs => hpath s ?_,
      fun l hl hl' => (hrest l hl').trans (hfs l hl)⟩
    rw [← hs, hrest "run" (by decide), under?_map]

theorem tagStep_spec (h : tagStep c name i d = .ok d') :
    ∃ fs calls, d' = (d.withCalls calls).setStep i (.map fs) ∧ (get? fs "in").isSome ∧
      (bindings (.map fs), calls) =
        setTags c.setting.tags c.setting.cwd (bindings (d.step i)) c.task.namespaces name
        d.edgeCalls ∧
      ∀ l, l ≠ "in" → get? fs l = under? (d.step i) l := by
  obtain ⟨ins, hins, h⟩ := of_bind h
  split at h
  · rename_i es
    have hb : bindings (d.step i) = es := by simp [bindings, field_eq_ok.mp hins, Doc.map?]
    obtain ⟨-, fs, rfl, hin, hrest⟩ := setPart_spec h
    rw [hb]
    exact ⟨fs, _, rfl, by simp [hin], by simp [bindings, hin, Doc.map?], hrest⟩
  · simp at h

theorem prepare_spec (h : prepare c name i key tool d = .ok d') :
    i < d.steps.length ∧ ∃ fs calls, d' = ((d.addTool tool).withCalls calls).setStep i (.map fs) ∧
      (get? fs "in").isSome ∧
      (bindings (.map fs), calls) =
        (if key = "cwl_subinterpreter" then
          setTags c.setting.tags c.setting.cwd (bindings (d.step i)) c.task.namespaces
          name d.edgeCalls
        else (bindings (d.step i), d.edgeCalls)) ∧
      ∀ l, l ≠ "run" → l ≠ "in" → get? fs l = under? (d.step i) l := by
  obtain ⟨d₁, hd₁, h⟩ := of_bind h
  obtain ⟨hi, fs, rfl, hin, -, hrest⟩ := setRun_spec hd₁
  have hb : bindings (.map fs) = bindings ((d.addTool tool).step i) := by
    rw [bindings, under?_map, hin, bindings]
    cases under? ((d.addTool tool).step i) "in" <;> rfl
  refine ⟨hi, ?_⟩
  split at h
  · rename_i hkey
    rw [if_pos hkey]
    obtain ⟨gs, calls, rfl, hin', hb', hrest'⟩ := tagStep_spec h
    rw [step_setStep _ hi] at hb' hrest'
    rw [hb] at hb'
    refine ⟨gs, calls, ?_, hin', hb', fun l hrun hl => (hrest' l hl).trans (hrest l hrun hl)⟩
    exact setStep_setStep (d := (d.addTool tool).withCalls calls) ..
  · rename_i hkey
    rw [if_neg hkey, ← pure_eq_ok.mp h]
    exact ⟨fs, d.edgeCalls, rfl, by rw [hin]; rfl, by rw [hb]; rfl, hrest⟩

theorem drawStep_draws (h : drawStep c s d = .ok d') : d.Draws d' := by
  have hmarked : ∀ node, d.Draws { d with lastNode := node } := fun _ => ⟨rfl, .of_eq rfl rfl⟩
  obtain ⟨cls, -, h⟩ := of_bind h
  split at h
  · obtain ⟨look, -, label, -, style, -, h⟩ := of_bind₃ h
    exact (hmarked _).trans (.addNode h)
  split at h
  · rw [← pure_eq_ok.mp h]
    exact hmarked _
  · exact (hmarked _).trans (.addNode h)

theorem noteAfter_cases {old new notes : Doc} {r : Doc × Doc}
    (h : (noteAfter i key old new notes note).Yields r) :
    (old == new) ∧ r = (notes, note) ∨ (old == new) = false ∧
      ∃ wic es, new.fieldD "wic" (.map []) = .ok wic ∧ notes = .map es ∧
      r = (.map (put es (Workflow.placeKey i key) (Doc.obj [("wic", wic)])),
        Doc.obj [("wic", wic)]) := by
  unfold noteAfter at h
  split at h
  · rename_i heq
    exact .inl ⟨heq, (yields_pure.mp h).symm⟩
  · rename_i hne
    obtain ⟨-, -, wic, hwic, es, hes, h⟩ := h.of_bind₃
    rw [yields_lift] at hwic hes
    exact .inr ⟨(Bool.not_eq_true _).mp hne, wic, es, hwic, entries_eq_ok.mp hes,
      (yields_pure.mp h).symm⟩

theorem mem_of_requiredArgs (h : requiredArgs tool params = .ok required)
    (ha : a ∈ required) : ∃ ks, params.members = .ok ks ∧ .str a ∈ ks := by
  obtain ⟨cls, -, ks, hks, h⟩ := of_bind₂ h
  refine ⟨ks, hks, ?_⟩
  dsimp only at h
  split at h
  · obtain ⟨ks', hks', h⟩ := of_bind h
    refine mem_of_filterM hks' ?_
    rw [names_eq_ok h]
    exact mem_map_of_mem ha
  · split at h
    · rw [names_eq_ok h]
      exact mem_map_of_mem ha
    · simp at h

theorem addOwnNames_chain (h : addOwnNames i args d = .ok d') :
    Chain (fun arg d e => e = d ∨ e = d.bind i arg (.str arg) ∧
      get? (bindings (d.step i)) arg = none) args d d' := by
  refine (foldlM_eq_ok h).imp ?_
  intro arg d e h
  obtain ⟨held, hheld, h⟩ := of_bind h
  obtain ⟨ins, hins, hheld⟩ := of_bind hheld
  split at h
  · exact .inl (pure_eq_ok.mp h).symm
  · rename_i hnot
    obtain ⟨⟨es, hes⟩, rfl⟩ := setIn_eq_ok h
    have : ins = .map es := by
      have := field_eq_ok.mp hins
      rw [hes] at this
      exact (Option.some.inj this).symm
    subst this
    refine .inr ⟨rfl, ?_⟩
    simpa [bindings, hes, Doc.map?, hnot] using holds_map hheld

def anchorOf : Doc → Option (String × String)
  | .map [(.str k, v)] => (under? v Yaml.anchorKey).map fun a => (a.text, k)
  | _ => none

def enterAnchors (path : Namespaces) (anchors : List (String × String)) (es : EdgeSites) :
    EdgeSites :=
  anchors.foldl (fun es a => Keyed.put es a.1 ⟨path, a.2⟩) es

def Draft.enter (d : Draft) (path : Namespaces) (anchors : List (String × String)) : Draft :=
  { d with
    edgeDefs := enterAnchors path anchors d.edgeDefs
    edgeCalls := enterAnchors path anchors d.edgeCalls }

def Fresh (defs : EdgeSites) (anchors : List (String × String)) : Prop :=
  (anchors.map (·.1)).Nodup ∧ ∀ a ∈ anchors, Keyed.has defs a.1 = false

def outEntries (step : Doc) : List Doc := ((under? step "out").bind Doc.list?).getD []

def anchorsOf (step : Doc) : List (String × String) := (outEntries step).filterMap anchorOf

theorem nameOutput_spec (h : nameOutput c s acc x = .ok r) : (anchorOf x = none ∧ r.1 = acc.1) ∨
      ∃ a, anchorOf x = some a ∧ Keyed.has acc.1.edgeDefs a.1 = false ∧
        r.1 = (acc.1.define a.1 ⟨c.path s, a.2⟩).call a.1 ⟨c.path s, a.2⟩ := by
  unfold nameOutput at h
  split at h
  · rename_i k v
    split at h
    · rename_i hnone
      cases h
      exact .inl ⟨by simp [anchorOf, hnone], rfl⟩
    · rename_i a ha
      obtain ⟨name, hname, h⟩ := of_bind h
      have hname : a.text = name := by
        unfold edgeName at hname
        split at hname <;> simp_all
      split at h
      · simp at h
      · rename_i hfresh
        rw [← pure_eq_ok.mp h]
        refine .inr ⟨(name, k), by simp [anchorOf, ha, hname], by simpa using hfresh, rfl⟩
  · rename_i hx
    cases h
    refine .inl ⟨?_, rfl⟩
    unfold anchorOf
    split
    · exact absurd rfl (hx _ _)
    · rfl

theorem nameOutput_fold (h : xs.foldlM (nameOutput c s) acc = .ok r) :
    r.1 = acc.1.enter (c.path s) (xs.filterMap anchorOf) ∧
      Fresh acc.1.edgeDefs (xs.filterMap anchorOf) := by
  have hc := foldlM_eq_ok h
  clear h
  induction hc with
  | nil s => exact ⟨rfl, nodup_nil, by simp⟩
  | @cons x xs acc r t head _ ih =>
    rcases nameOutput_spec head with ⟨hx, hr⟩ | ⟨a, hx, hfresh, hr⟩
    · rw [filterMap_cons_none hx, ← hr]
      exact ih
    · rw [filterMap_cons_some hx]
      obtain ⟨hlast, hnodup, hnew⟩ := ih
      rw [hr] at hlast hnew
      have hsplit : ∀ b ∈ xs.filterMap anchorOf, a.1 ≠ b.1 ∧
          Keyed.has acc.1.edgeDefs b.1 = false := by
        intro b hb
        simpa [define, call, Keyed.has_put] using hnew b hb
      refine ⟨hlast, ?_, ?_⟩
      · refine nodup_cons.mpr ⟨?_, hnodup⟩
        intro hmem
        obtain ⟨b, hb, heq⟩ := mem_map.mp hmem
        exact (hsplit b hb).1 heq.symm
      · intro b hb
        rcases mem_cons.mp hb with rfl | hb
        · exact hfresh
        · exact (hsplit b hb).2

theorem nameOutputs_spec (h : nameOutputs c s d = .ok d') :
    s.index < d.steps.length ∧ Fresh d.edgeDefs (anchorsOf (d.step s.index)) ∧
      ∃ fs, d' = (d.enter (c.path s) (anchorsOf (d.step s.index))).setStep s.index (.map fs) ∧
        ∀ l, l ≠ "out" → get? fs l = under? (d.step s.index) l := by
  obtain ⟨stated, hstated, d₁, hd₁, out, hout, h⟩ := of_bind₃ h
  obtain ⟨-, -, named, hnamed, hset⟩ := of_bind₂ h
  obtain ⟨hlast, hfresh⟩ := nameOutput_fold hnamed
  have hstart : ∃ step, d₁ = d.setStep s.index step ∧
      out.list?.getD [] = outEntries (d.step s.index) ∧
      ∀ l, l ≠ "out" → under? (d₁.step s.index) l = under? (d.step s.index) l := by
    split at hd₁
    · cases hd₁
      exact ⟨_, setStep_step.symm, by simp [outEntries, field_eq_ok.mp hout], fun _ _ => rfl⟩
    · rename_i hnot
      obtain ⟨es, hes, rfl⟩ := setPart_eq_ok hd₁
      have hi := lt_length_of_step hes
      rw [step_setStep _ hi] at hout ⊢
      rw [hes] at hstated ⊢
      have hnone : get? es "out" = none := by simpa [hnot] using holds_map hstated
      have hout : out = .list [] := by simpa using (field_eq_ok.mp hout).symm
      refine ⟨_, rfl, by simp [outEntries, hnone, hout, Doc.list?], ?_⟩
      intro l hl
      rw [under?_map, under?_map, get?_put_ne hl.symm]
  obtain ⟨step, rfl, hentries, hsame⟩ := hstart
  obtain ⟨hi, fs, rfl, -, hfs⟩ := setPart_spec hset
  rw [hentries] at hlast hfresh
  rw [hlast] at hi hfs ⊢
  refine ⟨by simpa [setStep, enter] using hi, hfresh, fs, ?_, ?_⟩
  · exact setStep_setStep (d := d.enter ..) ..
  · intro l hl
    exact (hfs l hl).trans (hsame l hl)

theorem addOutputs_spec (h : (addOutputs s d).Yields d') :
    ∃ outs sigs step, under? s.tool.cwl "outputs" = some (.map outs) ∧ outputSigs outs = .ok sigs ∧
      d' = (d.setStep s.index step).addOutputs sigs ∧
      Workflow.addOut (d.step s.index) s.key (outs.map fun e => e.1.text) = .ok step := by
  obtain ⟨outs, houts, sigs, hsigs, h⟩ := h.of_bind₂
  obtain ⟨-, -, step, hstep, h⟩ := h.of_bind₂
  rw [yields_lift] at houts hsigs hstep
  rw [yields_pure] at h
  obtain ⟨doc, hdoc, houts⟩ := of_bind houts
  rw [entries_eq_ok] at houts
  subst houts
  exact ⟨outs, sigs, step, field_eq_ok.mp hdoc, hsigs, h.symm, hstep⟩

theorem addOut_spec {step s : Doc} {names : List String} (hin : (under? step "in").isSome)
    (h : Workflow.addOut step key names = .ok s) :
    ∃ fs, s = .map fs ∧ ∀ l, l ≠ "out" → get? fs l = under? step l := by
  cases step with
  | map es =>
    cases es with
    | nil => simp at hin
    | cons e es =>
      simp only [Workflow.addOut] at h
      split at h
      · obtain ⟨old, -, rfl⟩ := of_map h
        exact ⟨_, rfl, fun l hl => by rw [get?_put_ne hl.symm, under?_map]⟩
      · cases h
        exact ⟨_, rfl, fun l hl => by rw [get?_put_ne hl.symm, under?_map]⟩
  | _ => simp [under?, Doc.map?] at hin

theorem guardStep_spec (h : (guardStep c s required d).Yields d') :
    d' = d ∨ s.index < d.steps.length ∧ ∃ fs, d' = d.setStep s.index (.map fs) ∧
      ∀ l, l ≠ "when" → get? fs l = under? (d.step s.index) l := by
  unfold guardStep at h
  split at h
  · exact .inl (yields_pure.mp h).symm
  · obtain ⟨guarded, -, -, -, h⟩ := h.of_bind₂
    rw [yields_lift] at h
    obtain ⟨hi, fs, rfl, -, hrest⟩ := setPart_spec h
    exact .inr ⟨hi, fs, rfl, hrest⟩

def Draft.after (d : Draft) (i : Nat) (result : Compiled) (notes step : Doc) : Draft :=
  { d with
    parts := d.parts ++ [result.tree]
    graphs := result.graphs.dropLast
    notes := notes
    steps := d.steps.set i step
    siblings := d.siblings ++ (result.graphs.getLast?).toList
    firsts := d.firsts ++ [result.tree.part.firstName] }

theorem compileSub_spec {r : Draft × Doc × Tool}
    (h : (compileSub sub c i key name note d).Yields r) :
    ∃ yml graph result notes step, under? (d.step i) "subtree" = some yml ∧
      subGraph key yml = .ok graph ∧
      (sub (subTask c key name yml graph d)).Yields result ∧
      (noteAfter i key yml result.tree.part.yml d.notes note).Yields (notes, r.2.1) ∧
      givenStep (d.step i) r.2.1 = .ok step ∧
      r.2.2 = ⟨Path.stem key ++ ".cwl", result.tree.part.cwl⟩ ∧
      r.1 = takeUp c name result.env (d.after i result notes step) := by
  obtain ⟨yml, hyml, graph, hgraph, result, hresult, h⟩ := h.of_bind₃
  obtain ⟨noted, hnoted, step, hstep, h⟩ := h.of_bind₂
  rw [yields_lift] at hyml hgraph hstep
  rw [← yields_pure.mp h]
  exact ⟨yml, graph, result, noted.1, step, field_eq_ok.mp hyml, hgraph, hresult, hnoted,
    hstep, rfl, rfl⟩

theorem findTool_spec {r : Draft × Tool} (h : findTool c i key name space d = .ok r) :
    (∃ run, (c.setting.tools.get? ⟨Path.stem key, space⟩).or
      (c.setting.tools.get? ⟨run, globalSpace⟩) = some r.2) ∧
      ∃ part, part.cwl = r.2.cwl ∧ r.1 = { d with parts := d.parts ++ [.node part []] } := by
  obtain ⟨run, -, h⟩ := of_bind h
  dsimp only at h
  split at h
  · simp at h
  · rename_i tool htool
    rw [← pure_eq_ok.mp h]
    exact ⟨⟨_, htool⟩, _, rfl, rfl⟩

theorem bringIn_cases {inner : Doc}
    (h : (bringIn sub c i key name space note d).Yields (e, inner, tool)) :
    Workflow.isSubKey key ∧ (compileSub sub c i key name note d).Yields (e, inner, tool) ∨
      Workflow.isSubKey key = false ∧ inner = note ∧
      findTool c i key name space d = .ok (e, tool) := by
  unfold bringIn at h
  split at h
  · rename_i hsub
    exact .inl ⟨hsub, h⟩
  · rename_i hsub
    obtain ⟨⟨e', tool'⟩, hfound, h⟩ := h.of_lift
    simp only [yields_pure, Prod.mk.injEq] at h
    obtain ⟨rfl, rfl, rfl⟩ := h
    exact .inr ⟨by simpa using hsub, rfl, hfound⟩

end Writes

namespace Draft

variable {d e : Draft} {i : Nat} {arg : String}

theorem step_congr (h : d.steps = e.steps) (i : Nat) : d.step i = e.step i := by
  simp only [step, h]

theorem steps_of_core (h : d.core = e.core) : d.steps = e.steps := by
  simpa [core] using congrArg Draft.steps h

theorem given_of_core (h : d.core = e.core) : d.given = e.given := by
  simpa [core] using congrArg Draft.given h

theorem inputs_of_core (h : d.core = e.core) : d.inputs = e.inputs := by
  simpa [core] using congrArg Draft.inputs h

theorem calls_of_core (h : d.core = e.core) : d.edgeCalls = e.edgeCalls := by
  simpa [core] using congrArg Draft.edgeCalls h

theorem step_bind (h : i < d.steps.length) : (d.bind i arg v).step i = bindInput (d.step i) arg v :=
  step_setStep _ h

theorem bind_in (h : d.HasIn i) : (d.bind i arg v).HasIn i := by
  rw [HasIn, step_bind (lt_length_of_under? h)]
  simp [bindInput]

theorem bindings_of_bind (hin : d.HasIn i) (h : e.steps = (d.bind i arg v).steps) :
    bindings (e.step i) = put (bindings (d.step i)) arg v := by
  rw [step_congr h, step_bind (lt_length_of_under? hin), bindings_bindInput]

theorem get?_of_bind (hin : d.HasIn i) (h : e.steps = (d.bind i arg v).steps) :
    get? (bindings (e.step i)) arg = some v := by
  rw [bindings_of_bind hin h, get?_put_self]

def Rebinds (d : Draft) (i : Nat) (arg : String) (e : Draft) : Prop :=
  e.steps = d.steps ∨ ∃ v, e.steps = (d.bind i arg v).steps

section

variable (h : d.Rebinds i arg e) (hin : d.HasIn i)

include h hin

theorem Rebinds.keeps_in : e.HasIn i := by
  rcases h with h | ⟨v, h⟩
  · rwa [HasIn, step_congr h]
  · rw [HasIn, step_congr h]
    exact bind_in hin

theorem Rebinds.bindings_ne (hne : arg ≠ a) :
    get? (bindings (e.step i)) a = get? (bindings (d.step i)) a := by
  rcases h with h | ⟨v, h⟩
  · rw [step_congr h]
  · rw [bindings_of_bind hin h, get?_put_ne hne]

theorem Rebinds.field (hl : l ≠ "in") : under? (e.step i) l = under? (d.step i) l := by
  rcases h with h | ⟨v, h⟩
  · rw [step_congr h]
  · rw [step_congr h, step_bind (lt_length_of_under? hin), under?_bindInput hl]

end

structure Alongside (d e : Draft) : Prop where
  notes : e.notes = d.notes
  outputs : e.outputs = d.outputs
  parts : e.parts = d.parts
  tools : e.tools = d.tools
  defs : e.edgeDefs = d.edgeDefs
  firsts : e.firsts = d.firsts

theorem Alongside.of_core (h : e.core = d.core) : Alongside d e := by
  constructor
  · simpa [core] using congrArg Draft.notes h
  · simpa [core] using congrArg Draft.outputs h
  · simpa [core] using congrArg Draft.parts h
  · simpa [core] using congrArg Draft.tools h
  · simpa [core] using congrArg Draft.edgeDefs h
  · simpa [core] using congrArg Draft.firsts h

theorem Alongside.trans (h : Alongside d e) (h' : Alongside e f) : Alongside d f := by
  constructor
  · rw [h'.notes, h.notes]
  · rw [h'.outputs, h.outputs]
  · rw [h'.parts, h.parts]
  · rw [h'.tools, h.tools]
  · rw [h'.defs, h.defs]
  · rw [h'.firsts, h.firsts]

theorem Alongside.of_chain {α : Type} {R : α → Draft → Draft → Prop} {as : List α}
    (h : ∀ a d e, R a d e → Alongside d e) (hc : Chain R as d e) : Alongside d e := by
  induction hc with
  | nil d => exact .of_core rfl
  | cons head _ ih => exact (h _ _ _ head).trans ih

end Draft

section Inputs

variable {c : Scope} {s : Site} {provided : List Doc} {referred : List String} {d e f : Draft}
  {arg : String}

theorem Taken.rebinds (h : Taken c s d arg val f) (hcore : e.core = f.core) :
    d.Rebinds s.index arg e := by
  rw [Draft.Rebinds, Draft.steps_of_core hcore]
  cases h <;> exact .inr ⟨_, rfl⟩

theorem Supplied.rebinds (h : Supplied c s provided referred d arg f) (hcore : e.core = f.core) :
    d.Rebinds s.index arg e := by
  rw [Draft.Rebinds, Draft.steps_of_core hcore]
  cases h with
  | provided h => exact .inl rfl
  | left _ h => exact .inl rfl
  | _ => exact .inr ⟨_, rfl⟩

theorem Taken.alongside (h : Taken c s d arg val e) : Draft.Alongside d e := by
  cases h <;> exact ⟨rfl, rfl, rfl, rfl, rfl, rfl⟩

theorem Supplied.alongside (h : Supplied c s provided referred d arg e) : Draft.Alongside d e := by
  cases h <;> exact ⟨rfl, rfl, rfl, rfl, rfl, rfl⟩

theorem Taken.grows (h : Taken c s d arg val e) : d.Grows e := by
  cases h <;> exact .of_eq rfl rfl

theorem Supplied.grows (h : Supplied c s provided referred d arg e) : d.Grows e := by
  cases h <;> exact .of_eq rfl rfl

def Supplies (c : Scope) (s : Site) (provided : List Doc) (referred : List String) (arg : String)
    (d e : Draft) : Prop :=
  d.HasIn s.index ∧ ∃ f, Supplied c s provided referred d arg f ∧ f.Draws e

theorem requireAll_chain (hin : d.HasIn s.index)
    (h : (requireAll c s provided referred args d).Yields r) (hnone : r.2 = none) :
    Chain (Supplies c s provided referred) args d r.1 := by
  induction args generalizing d with
  | nil =>
    rw [requireAll, yields_pure] at h
    subst h
    exact .nil d
  | cons arg args ih =>
    obtain ⟨⟨e, ids⟩, he, h⟩ := h.of_bind
    obtain ⟨f, hf, hdraws⟩ := require_supplied hin he
    split at h
    · obtain ⟨-, -, -, -, h⟩ := h.of_bind₂
      rw [yields_pure] at h
      rw [← h] at hnone
      cases hnone
    · exact .cons ⟨hin, f, hf, hdraws⟩ (ih ((hf.rebinds hdraws.core).keeps_in hin) h)

end Inputs

def siteAt (c : Scope) (i : Nat) (key space : String) (inner : Doc) (tool : Tool) (params : Doc) :
    Site :=
  ⟨i, key, nameAt c i key space, inner, Workflow.isSubKey key, tool, params⟩

/-- The drafts that the compilation of a step goes through. -/
structure StepRun (sub : Compiler) (c : Scope) (i : Nat) (key : String) (d d' : Draft) where
  note : Doc
  space : String
  noted : noteAt d.notes i key = .ok (note, space)
  inner : Doc
  tool : Tool
  brought : Draft
  bringing : (bringIn sub c i key (nameAt c i key space) space note d).Yields (brought, inner, tool)
  prepared : Draft
  preparing : prepare c (nameAt c i key space) i key tool brought = .ok prepared
  provided : List Doc
  ins : Doc
  ins_eq : under? (prepared.step i) "in" = some ins
  members_eq : ins.members = .ok provided
  params : Doc
  params_eq : under? tool.cwl "inputs" = some params
  required : List String
  requiring : requiredArgs tool params = .ok required
  cls : Doc
  cls_eq : under? tool.cwl "class" = some cls
  owned : Draft
  owning : (if cls == .str "Workflow" then addOwnNames i required prepared
    else .ok prepared) = .ok owned
  drawn : Draft
  drawing : drawStep c (siteAt c i key space inner tool params) owned = .ok drawn
  named : Draft
  naming : nameOutputs c (siteAt c i key space inner tool params) drawn = .ok named
  taken : Draft
  taking : Chain (fun k d e => (provide c (siteAt c i key space inner tool params) d k).Yields e)
    provided named taken
  bound : Draft
  binding : (requireAll c (siteAt c i key space inner tool params) provided
    (required.filter fun a => Keyed.has owned.edgeCalls a) required taken).Yields (bound, none)
  closed : Draft
  closing : (addOutputs (siteAt c i key space inner tool params) bound).Yields closed
  guarding : (guardStep c (siteAt c i key space inner tool params) required closed).Yields d'

namespace StepRun

def site (run : StepRun sub c i key d d') : Site :=
  siteAt c i key run.space run.inner run.tool run.params

theorem drawn_core (run : StepRun sub c i key d d') : run.drawn.core = run.owned.core :=
  (drawStep_draws run.drawing).core

end StepRun

structure SubRun {sub : Compiler} {c : Scope} {i : Nat} {key : String} {d d' : Draft}
    (run : StepRun sub c i key d d') where
  isSub : Workflow.isSubKey key
  yml : Doc
  found : under? (d.step i) "subtree" = some yml
  graph : Graph
  graph_eq : subGraph key yml = .ok graph
  result : Compiled
  running : (sub (subTask c key run.site.name yml graph d)).Yields result
  notes : Doc
  noting : (noteAfter i key yml result.tree.part.yml d.notes run.note).Yields (notes, run.inner)
  step : Doc
  giving : givenStep (d.step i) run.inner = .ok step
  tool : run.tool = ⟨Path.stem key ++ ".cwl", result.tree.part.cwl⟩
  brought_eq : run.brought = takeUp c run.site.name result.env (d.after i result notes step)

theorem SubRun.brought {run : StepRun sub c i key d d'} (inner : SubRun run) :
    run.brought.core = (takeUp c run.site.name inner.result.env
      (d.after i inner.result inner.notes inner.step)).core := by
  rw [inner.brought_eq]

structure ToolRun {sub : Compiler} {c : Scope} {i : Nat} {key : String} {d d' : Draft}
    (run : StepRun sub c i key d d') where
  isTool : Workflow.isSubKey key = false
  inner : run.inner = run.note
  stem : String
  known : (c.setting.tools.get? ⟨Path.stem key, run.space⟩).or
    (c.setting.tools.get? ⟨stem, globalSpace⟩) = some run.tool
  part : Part
  cwl : part.cwl = run.tool.cwl
  brought : run.brought = { d with parts := d.parts ++ [.node part []] }

theorem ToolRun.registered {run : StepRun sub c i key d d'} (tool : ToolRun run)
    (h : c.setting.tools.has ⟨Path.stem key, run.space⟩) :
    c.setting.tools.get? ⟨Path.stem key, run.space⟩ = some run.tool := by
  obtain ⟨found, hfound⟩ := Option.isSome_iff_exists.mp h
  have hknown := tool.known
  rw [hfound, Option.some_or] at hknown
  rw [hfound, hknown]

theorem StepRun.brought_cases (run : StepRun sub c i key d d') :
    Nonempty (SubRun run) ∨ Nonempty (ToolRun run) := by
  rcases bringIn_cases run.bringing with ⟨hkey, h⟩ | ⟨hkey, hinner, h⟩
  · obtain ⟨yml, graph, result, notes, step, hyml, hgraph, hresult, hnotes, hstep, htool, heq⟩ :=
      compileSub_spec h
    exact .inl ⟨hkey, yml, hyml, graph, hgraph, result, hresult, notes, hnotes, step,
      hstep, htool, heq⟩
  · obtain ⟨⟨stem, hstem⟩, part, hcwl, hbrought⟩ := findTool_spec h
    exact .inr ⟨hkey, hinner, stem, hstem, part, hcwl, hbrought⟩

theorem compileStep_run (h : (compileStep sub c i key d).Yields r) (hnone : r.2 = none) :
    Nonempty (StepRun sub c i key d r.1) := by
  obtain ⟨⟨note, space⟩, noted, ⟨brought, inner, tool⟩, bringing, prepared, preparing, h⟩ :=
    h.of_bind₃
  obtain ⟨provided, providing, params, params_eq, ⟨_, _, _⟩, binding, h⟩ := h.of_bind₃
  rw [yields_lift] at noted preparing providing params_eq
  obtain ⟨ins, ins_eq, members_eq⟩ := Result.of_bind providing
  obtain ⟨required, requiring, cls, cls_eq, owned, owning, binding⟩ := binding.of_bind₃
  obtain ⟨drawn, drawing, named, naming, binding⟩ := binding.of_bind₂
  obtain ⟨taken, taking, ⟨bound, insertion⟩, requirement, binding⟩ := binding.of_bind₂
  rw [yields_lift] at requiring cls_eq owning drawing naming
  simp only [yields_pure, Prod.mk.injEq] at binding
  obtain ⟨rfl, rfl, rfl⟩ := binding
  cases insertion with
  | some id =>
    rw [yields_pure] at h
    rw [← h] at hnone
    cases hnone
  | none =>
    obtain ⟨closed, closing, last, guarding, h⟩ := h.of_bind₂
    rw [yields_pure] at h
    subst h
    exact ⟨⟨note, space, noted, inner, tool, brought, bringing, prepared, preparing, provided, ins,
      field_eq_ok.mp ins_eq, members_eq, params, field_eq_ok.mp params_eq, required, requiring, cls,
      field_eq_ok.mp cls_eq, owned, owning, drawn, drawing, named, naming, taken,
      yields_foldlM taking, bound, requirement, closed, closing, guarding⟩⟩

end WorkflowInference.Compile
