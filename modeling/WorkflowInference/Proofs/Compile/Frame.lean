import WorkflowInference.Proofs.Compile.Step

/-!
What the compilation of a step leaves alone. No other step changes, the workflow keeps what it
declares, and what has been brought up, given or run so far stays.
-/
namespace WorkflowInference.Compile

open Entries Result

def SameKeys (d e : Doc) : Prop := e = d ∨ ∃ es fs, d = .map es ∧ e = .map fs ∧ keys fs = keys es

namespace SameKeys

variable {d e f : Doc}

theorem refl (d : Doc) : SameKeys d d := .inl rfl

theorem trans (h : SameKeys d e) (h' : SameKeys e f) : SameKeys d f := by
  rcases h' with rfl | ⟨es, fs, rfl, rfl, hk⟩
  · exact h
  · rcases h with rfl | ⟨gs, hs, rfl, heq, hk'⟩
    · exact .inr ⟨es, fs, rfl, rfl, hk⟩
    · cases heq
      exact .inr ⟨gs, fs, rfl, rfl, hk.trans hk'⟩

theorem includes (h : SameKeys d e) (x : Doc) : e.includes x = d.includes x := by
  rcases h with rfl | ⟨es, fs, rfl, rfl, hk⟩
  · rfl
  · simp only [Doc.includes, isSome_at?_congr hk]

theorem of_map (h : SameKeys d (.map fs)) : ∃ es, d = .map es ∧ keys fs = keys es := by
  rcases h with rfl | ⟨es, gs, rfl, heq, hk⟩
  · exact ⟨fs, rfl, rfl⟩
  · cases heq
    exact ⟨es, rfl, hk⟩

end SameKeys

theorem has_enterAnchors :
    Keyed.has (enterAnchors path anchors es) k ↔ Keyed.has es k ∨ ∃ a ∈ anchors, a.1 = k := by
  induction anchors generalizing es with
  | nil => simp [enterAnchors]
  | cons a as ih =>
    change Keyed.has (enterAnchors path as _) k ↔ _
    rw [ih, Keyed.has_put, Bool.or_eq_true, decide_eq_true_eq]
    simp only [List.mem_cons, exists_eq_or_imp]
    exact or_assoc.trans or_left_comm

theorem has_setTags (ins : Entries) (h : Keyed.has calls k) :
    Keyed.has (setTags t cwd ins ns name calls).2 k := by
  simp [setTags, Keyed.has_put, h]

structure Draft.Below (d e : Draft) : Prop where
  own : SameKeys d.ownInputs e.ownInputs
  inputs : ∀ k, has d.inputs k → has e.inputs k
  given : ∀ k, has d.given k → has e.given k
  calls : ∀ k, Keyed.has d.edgeCalls k → Keyed.has e.edgeCalls k
  tools : d.tools <+: e.tools
  outputs : d.outputs <+: e.outputs
  parts : d.parts <+: e.parts

theorem Draft.Below.refl (d : Draft) : d.Below d :=
  ⟨.refl _, fun _ h => h, fun _ h => h, fun _ h => h, List.prefix_rfl, List.prefix_rfl,
    List.prefix_rfl⟩

theorem Draft.Below.trans {d e f : Draft} (h : d.Below e) (h' : e.Below f) : d.Below f where
  own := h.own.trans h'.own
  inputs k hk := h'.inputs k (h.inputs k hk)
  given k hk := h'.given k (h.given k hk)
  calls k hk := h'.calls k (h.calls k hk)
  tools := h.tools.trans h'.tools
  outputs := h.outputs.trans h'.outputs
  parts := h.parts.trans h'.parts

structure Frame (i : Nat) (d e : Draft) : Prop extends d.Below e where
  length : e.steps.length = d.steps.length
  others : ∀ j, i ≠ j → e.step j = d.step j
  tree : ∀ l, l ≠ "inputs" → get? e.tree l = get? d.tree l

namespace Frame

variable {i : Nat} {d e f : Draft}

theorem trans (h : Frame i d e) (h' : Frame i e f) : Frame i d f where
  toBelow := h.toBelow.trans h'.toBelow
  length := h'.length.trans h.length
  others j hj := (h'.others j hj).trans (h.others j hj)
  tree l hl := (h'.tree l hl).trans (h.tree l hl)

section

variable (i)

theorem of_core (h : e.core = d.core) : Frame i d e := by
  have hsteps := Draft.steps_of_core h
  have hal := Draft.Alongside.of_core h
  have htree : e.tree = d.tree := by simpa [Draft.core] using congrArg Draft.tree h
  have hinputs := Draft.inputs_of_core h
  have hgiven := Draft.given_of_core h
  refine ⟨⟨?_, ?_, ?_, ?_, ?_, ?_, ?_⟩, by rw [hsteps], fun j _ => Draft.step_congr hsteps j, by
    simp [htree]⟩
  · simp [Draft.ownInputs, htree, SameKeys.refl]
  · simp [hinputs]
  · simp [hgiven]
  · simp [Draft.calls_of_core h]
  · simp [hal.tools]
  · simp [hal.outputs]
  · simp [hal.parts]

variable (d)

theorem refl : Frame i d d :=
  ⟨.refl d, rfl, fun _ _ => rfl, fun _ _ => rfl⟩

theorem setStep (s : Doc) : Frame i d (d.setStep i s) :=
  ⟨{ Draft.Below.refl d with }, by
    simp [Draft.setStep], fun j hj => Draft.step_setStep_ne s hj, fun _ _ => rfl⟩

theorem declare (name : String) (sig : Doc) : Frame i d (d.declare name sig) :=
  { refl i d with
    inputs := fun k hk => by simp [Draft.declare, has_put, hk] }

theorem give (name : String) (v : Doc) : Frame i d (d.give name v) :=
  { refl i d with
    given := fun k hk => by simp [Draft.give, has_put, hk] }

theorem call (name : String) (site : EdgeSite) : Frame i d (d.call name site) :=
  { refl i d with
    calls := fun k hk => by simp [Draft.call, Keyed.has_put, hk] }

theorem bind (arg : String) (v : Doc) : Frame i d (d.bind i arg v) := setStep i d _

theorem addTool (t : Tool) : Frame i d (d.addTool t) :=
  { refl i d with tools := List.prefix_append _ _ }

theorem enter (path : Namespaces) (as : List (String × String)) : Frame i d (d.enter path as) :=
  { refl i d with
    calls := fun _ hk => has_enterAnchors.mpr (.inl hk) }

theorem addOutputs (outs : Entries) : Frame i d (d.addOutputs outs) :=
  { refl i d with outputs := List.prefix_append _ _ }

theorem addPart (p : PartTree) (notes : Doc) :
    Frame i d { d with parts := d.parts ++ [p], notes } :=
  { refl i d with parts := List.prefix_append _ _ }

theorem after (r : Compiled) (notes step : Doc) : Frame i d (d.after i r notes step) :=
  { setStep i d step with parts := List.prefix_append _ _ }

theorem takeUp (c : Scope) (name : String) (env : Env) : Frame i d (takeUp c name env d) :=
  { refl i d with
    given := fun _ hk => has_iff_mem.mpr (mem_keys_update (has_iff_mem.mp hk))
    calls := fun _ hk => Keyed.has_update.mpr (.inl hk) }

variable {d} in
theorem withCalls (h : ∀ k, Keyed.has d.edgeCalls k → Keyed.has calls k) :
    Frame i d (d.withCalls calls) :=
  { refl i d with calls := h }

end

theorem of_chain {α : Type} {R : α → Draft → Draft → Prop} {as : List α}
    (h : ∀ a d e, R a d e → Frame i d e) (hc : Chain R as d e) : Frame i d e := by
  induction hc with
  | nil d => exact refl i d
  | cons head _ ih => exact (h _ _ _ head).trans ih

end Frame

theorem describe_spec (h : describe tree var sig = .ok fs) :
    (∀ l, l ≠ "inputs" → get? fs l = get? tree l) ∧
      SameKeys (getD tree "inputs" (.map [])) (getD fs "inputs" (.map [])) := by
  unfold describe at h
  split at h
  · rename_i ins hins
    split at h
    · rename_i es hes
      obtain ⟨doc, -, es₁, -, label, -, h⟩ := of_bind₃ h
      obtain ⟨es₂, -, rfl⟩ := of_map h
      refine ⟨fun l hl => get?_put_ne hl.symm, ?_⟩
      have hkeys : keys (write ins var (.map es₂)) = keys ins :=
        keys_write_of_isSome (by simp [hes])
      simp only [getD, get?_put_self, hins, Option.getD_some]
      exact .inr ⟨_, _, rfl, rfl, hkeys⟩
    · simp at h
    · rw [← pure_eq_ok.mp h]
      exact ⟨fun _ _ => rfl, .refl _⟩
  · rw [← pure_eq_ok.mp h]
    exact ⟨fun _ _ => rfl, .refl _⟩

section Inputs

variable {c : Scope} {s : Site} {provided : List Doc} {referred : List String} {d e : Draft}
  {arg : String} {val : Doc}

theorem Taken.frame (h : Taken c s d arg val e) : Frame s.index d e := by
  cases h with
  | auxiliary => exact ((Frame.declare ..).trans (Frame.give ..)).trans (Frame.bind ..)
  | unresolved => exact ((Frame.declare ..).trans (Frame.call ..)).trans (Frame.bind ..)
  | deferred => exact ((Frame.declare ..).trans (Frame.call ..)).trans (Frame.bind ..)
  | resolved => exact Frame.bind ..
  | value => exact ((Frame.declare ..).trans (Frame.give ..)).trans (Frame.bind ..)
  | @raw sig tree _ _ _ _ htree =>
    refine Frame.trans ?_ (Frame.bind ..)
    have hspec : (∀ l, l ≠ "inputs" → get? tree l = get? d.tree l) ∧
        SameKeys d.ownInputs (getD tree "inputs" (.map [])) := by
      split at htree
      · exact describe_spec htree
      · cases htree
        exact ⟨fun _ _ => rfl, .refl _⟩
    exact { Frame.refl s.index d with tree := hspec.1, own := hspec.2 }

theorem Supplied.frame (h : Supplied c s provided referred d arg e) : Frame s.index d e := by
  cases h with
  | provided => exact Frame.refl ..
  | left => exact Frame.refl ..
  | given => exact (Frame.declare ..).trans (Frame.bind ..)
  | passedOn => exact ((Frame.declare ..).trans (Frame.bind ..)).trans (Frame.call ..)
  | resolved => exact Frame.bind ..
  | inferred => exact Frame.bind ..
  | raised => exact (Frame.declare ..).trans (Frame.bind ..)

def Takes (c : Scope) (s : Site) (k : Doc) (d e : Draft) : Prop :=
  d.HasIn s.index ∧ ∃ arg val val' f, k = .str arg ∧
    get? (bindings (d.step s.index)) arg = some val ∧
    encoded arg val = .ok val' ∧ Taken c s d arg val' f ∧ f.Draws e

theorem provide_in (hin : d.HasIn s.index) (h : (provide c s d k).Yields e) : e.HasIn s.index := by
  obtain ⟨arg, val, val', f, -, -, -, hf, hcore, -⟩ := provide_taken h
  exact (hf.rebinds hcore).keeps_in hin

theorem Takes.frame (h : Takes c s k d e) : Frame s.index d e := by
  obtain ⟨-, arg, val, val', f, -, -, -, hf, hcore, -⟩ := h
  exact hf.frame.trans (Frame.of_core _ hcore)

theorem Supplies.frame (h : Supplies c s provided referred arg d e) : Frame s.index d e := by
  obtain ⟨-, f, hf, hcore, -⟩ := h
  exact hf.frame.trans (Frame.of_core _ hcore)

end Inputs

theorem SubRun.step_eq {sub : Compiler} {c : Scope} {i : Nat} {key : String} {d d' : Draft}
    {run : StepRun sub c i key d d'} (inner : SubRun run) : run.brought.step i = inner.step := by
  have hlt : i < d.steps.length :=
    Draft.lt_length_of_under? (k := "subtree") (by simp [inner.found])
  rw [Draft.step_congr (Draft.steps_of_core inner.brought)]
  exact Draft.step_setStep (d := d) _ hlt

namespace StepRun

variable (run : StepRun sub c i key d d')

include run

theorem brought_frame : Frame i d run.brought := by
  rcases run.brought_cases with ⟨⟨inner⟩⟩ | ⟨⟨tool⟩⟩
  · refine Frame.trans ?_ (Frame.of_core i inner.brought)
    exact (Frame.after ..).trans (Frame.takeUp ..)
  · rw [tool.brought]
    exact Frame.addPart i d _ d.notes

theorem prepared_frame : Frame i run.brought run.prepared := by
  obtain ⟨-, fs, calls, h, -, htags, -⟩ := prepare_spec run.preparing
  rw [h]
  refine ((Frame.addTool ..).trans (Frame.withCalls i fun k hk => ?_)).trans (Frame.setStep ..)
  split at htags
  · rw [(Prod.mk.inj htags).2]
    exact has_setTags (bindings (run.brought.step i)) hk
  · rw [(Prod.mk.inj htags).2]
    exact hk

theorem prepared_step :
    ∃ fs, run.prepared.step i = .map fs ∧
      ∀ l, l ≠ "run" → l ≠ "in" → get? fs l = under? (run.brought.step i) l := by
  obtain ⟨hi, fs, calls, h, -, -, hfs⟩ := prepare_spec run.preparing
  refine ⟨fs, ?_, hfs⟩
  rw [h]
  exact Draft.step_setStep (d := (run.brought.addTool run.tool).withCalls calls) _ hi

theorem prepared_tags :
    (key = "cwl_subinterpreter" ∧
        ∃ tags, tags = setTags c.setting.tags c.setting.cwd (bindings (run.brought.step i))
        c.task.namespaces run.site.name run.brought.edgeCalls ∧
      bindings (run.prepared.step i) = tags.1 ∧ run.prepared.edgeCalls = tags.2) ∨
    (key ≠ "cwl_subinterpreter" ∧ bindings (run.prepared.step i) = bindings (run.brought.step i) ∧
      run.prepared.edgeCalls = run.brought.edgeCalls) := by
  obtain ⟨hi, fs, calls, h, -, htags, -⟩ := prepare_spec run.preparing
  have hstep : run.prepared.step i = .map fs := by
    rw [h]
    exact Draft.step_setStep (d := (run.brought.addTool run.tool).withCalls calls) _ hi
  have hcalls : run.prepared.edgeCalls = calls := congrArg Draft.edgeCalls h
  rw [hstep, hcalls]
  split at htags
  · rename_i hkey
    exact .inl ⟨hkey, _, rfl, congrArg Prod.fst htags, congrArg Prod.snd htags⟩
  · rename_i hkey
    exact .inr ⟨hkey, congrArg Prod.fst htags, congrArg Prod.snd htags⟩

theorem mem_provided (h : k ∈ keys (bindings (run.prepared.step i))) : k ∈ run.provided := by
  have hmembers := run.members_eq
  unfold bindings at h
  rw [run.ins_eq, Option.bind_some] at h
  cases hins : run.ins with
  | map es =>
    rw [hins] at h hmembers
    rw [← Except.ok.inj hmembers]
    exact h
  | _ => simp [hins, Doc.map?, keys] at h

theorem prepared_in : run.prepared.HasIn i := by
  rw [Draft.HasIn, run.ins_eq]
  rfl

theorem owned_keeps {P : Draft → Prop}
    (hbind : ∀ arg ∈ run.required, ∀ x : Draft, x.HasIn i → get? (bindings (x.step i)) arg = none →
      P x → P (x.bind i arg (.str arg))) (h : P run.prepared) : P run.owned := by
  have howning := run.owning
  split at howning
  · refine ((addOwnNames_chain howning).keeps (P := fun x => x.HasIn i ∧ P x) ?_
      ⟨run.prepared_in, h⟩).2
    rintro arg harg x y ⟨hin, hx⟩ (rfl | ⟨rfl, hnone⟩)
    · exact ⟨hin, hx⟩
    · exact ⟨Draft.bind_in hin, hbind arg harg x hin hnone hx⟩
  · rwa [← Except.ok.inj howning]

theorem owned_alongside : Draft.Alongside run.prepared run.owned :=
  run.owned_keeps (fun _ _ _ _ _ h => h.trans ⟨rfl, rfl, rfl, rfl, rfl, rfl⟩) (.of_core rfl)

theorem owned_rest : run.owned.edgeCalls = run.prepared.edgeCalls ∧
    run.owned.inputs = run.prepared.inputs ∧ run.owned.given = run.prepared.given :=
  run.owned_keeps (P := fun x => x.edgeCalls = run.prepared.edgeCalls ∧
    x.inputs = run.prepared.inputs ∧
    x.given = run.prepared.given) (fun _ _ _ _ _ h => h) ⟨rfl, rfl, rfl⟩

theorem owned_frame : Frame i run.prepared run.owned :=
  run.owned_keeps (fun _ _ _ _ _ h => h.trans (Frame.bind ..)) (Frame.refl ..)

theorem named_frame : Frame i run.owned run.named := by
  obtain ⟨-, -, fs, h, -⟩ := nameOutputs_spec run.naming
  refine (Frame.of_core i run.drawn_core).trans ?_
  rw [h]
  exact (Frame.enter ..).trans (Frame.setStep ..)

theorem owned_in : run.owned.HasIn i :=
  run.owned_keeps (P := (·.HasIn i)) (fun _ _ _ hin _ _ => Draft.bind_in hin) run.prepared_in

theorem owned_field (hl : l ≠ "in") :
    under? (run.owned.step i) l = under? (run.prepared.step i) l := by
  refine run.owned_keeps (P := fun x => under? (x.step i) l = _) (fun arg _ x hin _ hx => ?_) rfl
  rw [← hx]
  exact Draft.Rebinds.field (.inr ⟨_, rfl⟩) hin hl

theorem anchors_eq : anchorsOf (run.drawn.step i) = anchorsOf (run.brought.step i) := by
  obtain ⟨fs, hstep, hfs⟩ := run.prepared_step
  have hout : under? (run.drawn.step i) "out" = under? (run.brought.step i) "out" := by
    rw [Draft.step_congr (Draft.steps_of_core run.drawn_core), run.owned_field (by decide), hstep]
    exact hfs "out" (by decide) (by decide)
  simp only [anchorsOf, outEntries, hout]

theorem named_spec :
    Fresh run.prepared.edgeDefs (anchorsOf (run.brought.step i)) ∧
      run.named.edgeDefs = enterAnchors (c.path run.site)
      (anchorsOf (run.brought.step i)) run.prepared.edgeDefs ∧
      run.named.edgeCalls = enterAnchors (c.path run.site)
      (anchorsOf (run.brought.step i)) run.prepared.edgeCalls ∧
      run.named.inputs = run.prepared.inputs ∧ run.named.given = run.prepared.given := by
  obtain ⟨-, hfresh, fs, hnamed, -⟩ := nameOutputs_spec run.naming
  have hanchors := run.anchors_eq
  have hdefs : run.drawn.edgeDefs = run.prepared.edgeDefs :=
    (run.owned_alongside.trans (Draft.Alongside.of_core run.drawn_core)).defs
  obtain ⟨hcalls, hinputs, hgiven⟩ := run.owned_rest
  refine ⟨?_, ?_, ?_, ?_, ?_⟩
  · rw [← hanchors, ← hdefs]
    exact hfresh
  · rw [← hanchors, ← hdefs]
    exact (congrArg Draft.edgeDefs hnamed :)
  · rw [← hanchors, ← hcalls, ← Draft.calls_of_core run.drawn_core]
    exact (congrArg Draft.edgeCalls hnamed :)
  · rw [← hinputs, ← Draft.inputs_of_core run.drawn_core]
    exact (congrArg Draft.inputs hnamed :)
  · rw [← hgiven, ← Draft.given_of_core run.drawn_core]
    exact (congrArg Draft.given hnamed :)

theorem named_step :
    ∃ fs, run.named.step i = .map fs ∧ ∀ l, l ≠ "out" →
      get? fs l = under? (run.owned.step i) l := by
  obtain ⟨hi, -, fs, h, hfs⟩ := nameOutputs_spec run.naming
  refine ⟨fs, ?_, ?_⟩
  · rw [h]
    exact Draft.step_setStep _ hi
  · intro l hl
    rw [hfs l hl, Draft.step_congr (Draft.steps_of_core run.drawn_core)]
    rfl

theorem named_bindings :
    bindings (run.named.step i) = bindings (run.owned.step i) := by
  obtain ⟨fs, hstep, hfs⟩ := run.named_step
  exact bindings_congr (by rw [hstep]; exact hfs "in" (by decide))

theorem named_in : run.named.HasIn i := by
  obtain ⟨fs, h, hfs⟩ := run.named_step
  rw [Draft.HasIn, h, under?_map, hfs "in" (by decide)]
  exact run.owned_in

theorem taken_in : run.taken.HasIn i :=
  run.taking.keeps (P := (·.HasIn i)) (fun _ _ _ _ hin h => provide_in hin h) run.named_in

theorem taking_in :
    Chain (fun k x y => x.HasIn i ∧ (provide c run.site x k).Yields y) run.provided run.named
      run.taken :=
  (run.taking.with_inv (P := (·.HasIn i)) (fun _ _ _ _ hin h => provide_in hin h) run.named_in).imp
    fun _ _ _ h => h.2

theorem taken_chain : Chain (Takes c run.site) run.provided run.named run.taken :=
  run.taking_in.imp fun _ _ _ h => ⟨h.1, provide_taken h.2⟩

theorem taken_frame : Frame i run.named run.taken :=
  Frame.of_chain (fun _ _ _ h => h.frame) run.taken_chain

def referred : List String := run.required.filter fun a => Keyed.has run.owned.edgeCalls a

theorem bound_chain :
    Chain (Supplies c run.site run.provided run.referred) run.required run.taken run.bound :=
  requireAll_chain run.taken_in run.binding rfl

theorem bound_frame : Frame i run.taken run.bound :=
  Frame.of_chain (fun _ _ _ h => h.frame) run.bound_chain

theorem bound_in : run.bound.HasIn i := by
  refine run.bound_chain.keeps (P := (·.HasIn i)) ?_ run.taken_in
  rintro arg - d e hin ⟨-, f, hf, hcore, -⟩
  exact (hf.rebinds hcore).keeps_in hin

theorem closed_spec :
    ∃ outs sigs, under? run.tool.cwl "outputs" = some (.map outs) ∧ outputSigs outs = .ok sigs ∧
      ∃ s, d' = (run.bound.setStep i s).addOutputs sigs ∧
        ∀ l, l ≠ "out" → l ≠ "when" → under? s l = under? (run.bound.step i) l := by
  obtain ⟨outs, sigs, step, houts, hsigs, hclosed, hstep⟩ := addOutputs_spec run.closing
  obtain ⟨fs, rfl, hfs⟩ := addOut_spec run.bound_in hstep
  refine ⟨outs, sigs, houts, hsigs, ?_⟩
  have hi : i < run.bound.steps.length := Draft.lt_length_of_under? run.bound_in
  have hlast : run.closed.step i = .map fs := by
    rw [hclosed]
    exact Draft.step_setStep _ hi
  rcases guardStep_spec run.guarding with h | ⟨-, gs, h, hgs⟩
  · exact ⟨.map fs, h.trans hclosed, fun l hl _ => hfs l hl⟩
  · refine ⟨.map gs, h.trans ?_, ?_⟩
    · rw [hclosed]
      exact congrArg (Draft.addOutputs · sigs) (Draft.setStep_setStep ..)
    · intro l hl hl'
      have hstep : get? gs l = under? (run.closed.step i) l := hgs l hl'
      rw [under?_map, hstep, hlast]
      exact hfs l hl

theorem last_bindings : bindings (d'.step i) = bindings (run.bound.step i) := by
  obtain ⟨outs, sigs, -, -, s, h, hs⟩ := run.closed_spec
  have hstep : d'.step i = s := by
    rw [Draft.step_congr (congrArg Draft.steps h :)]
    exact Draft.step_setStep s (Draft.lt_length_of_under? run.bound_in)
  rw [hstep]
  exact bindings_congr (hs "in" (by decide) (by decide))

theorem last_frame : Frame i run.bound d' := by
  obtain ⟨outs, sigs, -, -, s, h, -⟩ := run.closed_spec
  have := (Frame.setStep i run.bound s).trans (Frame.addOutputs i _ sigs)
  rwa [← h] at this

theorem alongside : Draft.Alongside run.named run.bound := by
  refine .trans (.of_chain ?_ run.taken_chain) (.of_chain ?_ run.bound_chain)
  · rintro k d e ⟨-, arg, val, val', f, -, -, -, hf, hcore, -⟩
    exact hf.alongside.trans (.of_core hcore)
  · rintro arg d e ⟨-, f, hf, hcore, -⟩
    exact hf.alongside.trans (.of_core hcore)

theorem brought_tools :
    run.brought.tools = d.tools ∧ run.brought.outputs = d.outputs := by
  rcases run.brought_cases with ⟨⟨inner⟩⟩ | ⟨⟨tool⟩⟩
  · have h := Draft.Alongside.of_core inner.brought
    exact ⟨h.tools, h.outputs⟩
  · rw [tool.brought]
    exact ⟨rfl, rfl⟩

theorem brought_parts :
    ∃ p, run.brought.parts = d.parts ++ [p] ∧ p.part.cwl = run.tool.cwl := by
  rcases run.brought_cases with ⟨⟨inner⟩⟩ | ⟨⟨tool⟩⟩
  · exact ⟨_, (Draft.Alongside.of_core inner.brought).parts, by rw [inner.tool]⟩
  · exact ⟨.node tool.part [], by rw [tool.brought], tool.cwl⟩

theorem entered :
    d'.notes = run.brought.notes ∧ d'.parts = run.brought.parts ∧
      d'.tools = d.tools ++ [run.tool] := by
  obtain ⟨-, fs, calls, hprepared, -⟩ := prepare_spec run.preparing
  obtain ⟨-, -, gs, hnamed, -⟩ := nameOutputs_spec run.naming
  obtain ⟨outs, sigs, -, -, s, hlast, -⟩ := run.closed_spec
  have hdrawn := run.owned_alongside.trans (Draft.Alongside.of_core run.drawn_core)
  have hbound := run.alongside
  refine ⟨?_, ?_, ?_⟩
  · calc d'.notes = run.bound.notes := (congrArg Draft.notes hlast :)
      _ = run.drawn.notes := hbound.notes.trans (congrArg Draft.notes hnamed :)
      _ = run.brought.notes := hdrawn.notes.trans (congrArg Draft.notes hprepared :)
  · calc d'.parts = run.bound.parts := (congrArg Draft.parts hlast :)
      _ = run.drawn.parts := hbound.parts.trans (congrArg Draft.parts hnamed :)
      _ = run.brought.parts := hdrawn.parts.trans (congrArg Draft.parts hprepared :)
  · calc d'.tools = run.bound.tools := (congrArg Draft.tools hlast :)
      _ = run.drawn.tools := hbound.tools.trans (congrArg Draft.tools hnamed :)
      _ = run.brought.tools ++ [run.tool] := hdrawn.tools.trans (congrArg Draft.tools hprepared :)
      _ = d.tools ++ [run.tool] := by rw [run.brought_tools.1]

theorem outputs_eq :
    ∃ outs sigs, under? run.tool.cwl "outputs" = some (.map outs) ∧ outputSigs outs = .ok sigs ∧
      d'.outputs = d.outputs ++ [sigs] := by
  obtain ⟨-, fs, calls, hprepared, -⟩ := prepare_spec run.preparing
  obtain ⟨-, -, gs, hnamed, -⟩ := nameOutputs_spec run.naming
  obtain ⟨outs, sigs, houts, hsigs, s, hlast, -⟩ := run.closed_spec
  have hdrawn := run.owned_alongside.trans (Draft.Alongside.of_core run.drawn_core)
  refine ⟨outs, sigs, houts, hsigs, ?_⟩
  calc d'.outputs = run.bound.outputs ++ [sigs] := (congrArg Draft.outputs hlast :)
    _ = run.drawn.outputs ++ [sigs] := by
      rw [run.alongside.outputs]
      exact congrArg (· ++ [sigs]) (congrArg Draft.outputs hnamed :)
    _ = run.brought.outputs ++ [sigs] := by
      rw [hdrawn.outputs]
      exact congrArg (· ++ [sigs]) (congrArg Draft.outputs hprepared :)
    _ = d.outputs ++ [sigs] := by rw [run.brought_tools.2]

theorem frame : Frame i d d' :=
  run.brought_frame.trans (run.prepared_frame.trans (run.owned_frame.trans (run.named_frame.trans
    (run.taken_frame.trans (run.bound_frame.trans run.last_frame)))))

end StepRun

end WorkflowInference.Compile
