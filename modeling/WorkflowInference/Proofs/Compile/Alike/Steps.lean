import WorkflowInference.Proofs.Compile.Alike.Draft
import WorkflowInference.Proofs.Workflow.Mapping

/-!
A step in two drafts that are alike. It may stand in different workflows and run different
documents, as long as its tools have the same inputs and outputs. Where nothing waits to be
resolved, an input is bound in the same way in both, and when the workflow that the step is compiles
to the same document in both, so does the step.
-/
namespace WorkflowInference.Compile

open Yaml (aliasKey inlineKey)

section Provided

variable {m n : Nat} {c : Scope} {u : Task} {s : Site} {v : Tool} {d e : Draft} (h : Alike m n d e)

include h

theorem giveAuxiliary_follows :
    Result.Follows (Alike m n) (giveAuxiliary s arg val d)
      (giveAuxiliary { s with tool := v } arg val e) :=
  .bind_same fun _ => h.declare.give.setIn

theorem drawValue_follows :
    Result.Follows (Alike m n) (drawValue c s arg d)
      (drawValue { c with task := u } { s with tool := v } arg e) := by
  unfold drawValue
  by_cases hshow : c.setting.graph.showInputs
  · rw [if_pos hshow, if_pos hshow]
    refine h.addNode.bind fun d' e' h' => .pure ?_
    exact h'.drawn ((Drawn.onOwn _ _).trans (.onView _ _)) ((Drawn.onOwn _ _).trans (.onView _ _))
  · rw [if_neg hshow, if_neg hshow]
    exact .pure h

theorem giveValue_follows : Result.Follows (Alike m n) (giveValue c s arg sig val d)
    (giveValue { c with task := u } { s with tool := v } arg sig val e) := by
  have hsig : givenSig (e.step s.index) arg sig = givenSig (d.step s.index) arg sig := by
    rw [givenSig, (h.step s.index).fieldD (by decide), givenSig]
  refine .bind_eq hsig fun es _ => ?_
  exact h.declare.give.setIn.bind fun d' e' h' => drawValue_follows h'

theorem keepRaw_follows :
    Result.Follows (Alike m n) (keepRaw s arg sig val d)
      (keepRaw { s with tool := v } arg sig val e) := by
  unfold keepRaw
  rw [h.tree]
  exact .bind_same fun tree => Alike.setIn { h with tree := rfl }

theorem leaveRaw_follows : Logged.Follows (Alike m n) (leaveRaw c s arg sig val d)
    (leaveRaw { c with task := u } { s with tool := v } arg sig val e) := by
  have hknown : namesInput e val = namesInput d val := by rw [namesInput, h.ownInputs, namesInput]
  refine .lift_eq hknown fun known _ => ?_
  split
  · intro a ha
    obtain ⟨-, -, -, -, ha⟩ := ha.of_bind₂
    exact absurd ha Logged.yields_throw
  · exact .lift (keepRaw_follows h)

theorem provideArg_follows (halias : under? val aliasKey = none) :
    Logged.Follows (Alike m n) (provideArg c s arg val d)
      (provideArg { c with task := u } { s with tool := v } arg val e) := by
  unfold provideArg
  split
  · exact .lift (giveAuxiliary_follows h)
  · refine .lift_eq rfl fun sig _ => ?_
    rw [halias]
    cases under? val inlineKey with
    | none => exact leaveRaw_follows h
    | some x => exact .lift (giveValue_follows h)

theorem provide_follows (hplain : PlainValues (bindings (d.step s.index))) :
    Logged.Follows (Alike m n) (provide c s d k)
      (provide { c with task := u } { s with tool := v } e k) := by
  refine .lift_eq (h.ins s.index) fun ins hins => .lift_eq rfl fun val hval =>
    .lift_eq rfl fun known _ => ?_
  split
  · rename_i arg _
    refine .lift_eq rfl fun val' hval' => ?_
    refine provideArg_follows h (encoded_plain ?_ hval').under?_alias
    obtain ⟨es, hes, hget⟩ := Option.bind_eq_some_iff.mp (Result.elim_eq_ok.mp hval)
    rw [Entries.at?_str] at hget
    refine hplain arg val ?_
    rw [bindings, field_eq_ok.mp hins, Option.bind_some, hes]
    exact hget
  · exact .throw

end Provided

section Inferred

variable {m n : Nat} {c : Scope} {u : Task} {tool v : Tool} {d e : Draft} {name : String}
  {i j : Nat} (h : Alike m n d e)

include h

theorem scanStep_eq : scanStep { c with task := u } e w j = scanStep c d w j := by
  unfold scanStep
  rw [h.notes, (h.step j).holds (by decide)]
  rcases h.tool j with ⟨hx, hy⟩ | ⟨a, b, hx, hy, hxy⟩
  · rw [hx, hy]
  · have hout : (b.cwl.field "outputs" >>= fun o => o.entries) = (a.cwl.field "outputs" >>= fun o =>
        o.entries) := by
      rw [hxy.field "outputs" (by simp)]
    rw [hx, hy]
    simp only [Option.elim_some]
    refine bind_congr fun note => ?_
    change (do let outs ← (b.cwl.field "outputs" >>= fun o => o.entries); _) =
      (do let outs ← (a.cwl.field "outputs" >>= fun o => o.entries); _)
    rw [hout]

theorem searchSteps_eq :
    searchSteps { c with task := u } e w arg j = searchSteps c d w arg j := by
  induction j with
  | zero => rfl
  | succ j ih =>
    unfold searchSteps
    rw [scanStep_eq h, ih]

theorem wantedOf_eq (ht : ToolAlike tool v) :
    wantedOf (e.step i) v.cwl arg = wantedOf (d.step i) tool.cwl arg := by
  unfold wantedOf
  rw [ht.field "inputs" (by simp), (h.step i).fieldD (by decide)]

omit h in
theorem argEnds_cases (m : Workflow.InputMapping) (name arg : String) (own : Bool) :
    argEnds m name arg own = .error .endless ∨ ∃ es, argEnds m name arg own = .ok es := by
  unfold argEnds
  split
  · exact .inr ⟨_, rfl⟩
  · exact m.ends_cases _

omit h in
theorem drawInferred_cases (hown : d.ownInputs.holds arg = .ok own) :
    drawInferred c arg name here there out b d = .error .endless ∨
      ∃ e, drawInferred c arg name here there out b d = .ok e ∧ Drawn d e := by
  unfold drawInferred
  rw [hown]
  dsimp only [bind, Except.bind]
  rcases argEnds_cases d.inputMapping name arg own with hends | ⟨ends, hends⟩
  · exact .inl (by rw [hends])
  · rw [hends]
    rcases Workflow.OutputMapping.source_cases d.outputMapping out with hsource | ⟨source, hsource⟩
    · exact .inl (by rw [hsource])
    · rw [hsource]
      exact .inr ⟨_, rfl, .onOwn d _⟩

/-- A connection is drawn unless the mappings of the second workflow lead round and round. -/
theorem drawInferred_follows :
    Logged.Follows (Alike m n) (liftM (drawInferred c arg name here there out b d))
      (liftM (drawInferred { c with task := u } arg name here there out b e)) := by
  intro d' hd'
  rw [Logged.yields_lift] at hd'
  obtain ⟨own, hown, -⟩ := Result.of_bind hd'
  rcases drawInferred_cases hown with hend | ⟨x, hx, hdx⟩
  · rw [hend] at hd'
    cases hd'
  · rw [hd'] at hx
    cases hx
    rw [← h.ownInputs] at hown
    rcases drawInferred_cases hown with hend | ⟨y, hy, hey⟩
    · exact .inl (Logged.endless_lift hend)
    · exact (Logged.surely_lift hy).comes (h.drawn hdx hey)

theorem takeOutput_follows (ht : ToolAlike tool v) :
    Logged.Follows (Alike m n) (liftM (takeOutput c i tool arg name j out d))
      (liftM (takeOutput { c with task := u } i v arg name j out e)) := by
  have hcls : (e.tools.getD j v).cwl.field "class" = (d.tools.getD j tool).cwl.field "class" := by
    rw [List.getD_eq_getElem?_getD, List.getD_eq_getElem?_getD]
    rcases h.tool j with ⟨hx, hy⟩ | ⟨_, _, hx, hy, hxy⟩
    · rw [hx, hy]
      exact ht.field _ (by simp)
    · rw [hx, hy]
      exact hxy.field _ (by simp)
  unfold takeOutput
  rw [hcls]
  refine .lift_bind (.of_eq rfl) ?_
  rintro cls _ rfl
  refine .lift_bind (Alike.addIn ?_) fun _ _ hst => drawInferred_follows hst
  exact { h with }

theorem bringUp_follows :
    Result.Follows (Alike m n) (bringUp c i arg sig d) (bringUp { c with task := u } i arg sig e) :=
  h.declare.addIn.bind fun _ _ hst => .pure hst

theorem infer_follows (ht : ToolAlike tool v) (htest : c.setting.testing) :
    Logged.Follows (fun a b => Alike m n a.1 b.1 ∧ b.2 = a.2) (infer c i tool arg name d)
      (infer { c with task := u } i v arg name e) := by
  refine .lift_eq (wantedOf_eq h ht) fun wanted _ => .lift_eq (searchSteps_eq h) fun found _ => ?_
  split
  · exact (takeOutput_follows h ht).bind fun _ _ hde => .pure ⟨hde, rfl⟩
  · refine .lift_eq rfl fun ids _ => ?_
    have hsilent : ∀ (t : Task) (seen : List Candidate) (x : Draft),
        reportMiss { c with task := t } i arg name seen x = pure () := by
      intro t seen x
      unfold reportMiss
      rw [htest, Bool.not_true, Bool.and_false]
      rfl
    have hc := hsilent c.task
    rw [hc, hsilent]
    refine (Logged.Follows.pure trivial (R := fun _ _ => True)).bind fun _ _ _ => ?_
    exact (Logged.Follows.lift (bringUp_follows h)).bind fun _ _ hde => .pure ⟨hde, rfl⟩

end Inferred

section Required

variable {m n : Nat} {u : Task} {v : Tool}

theorem require_follows (called called' : List String) (h : Alike m n d e) (ht : ToolAlike s.tool v)
    (htest : c.setting.testing) (hd : Ordinary d) (harg : Settled c s provided d arg) :
    Logged.Follows (fun a b => Alike m n a.1 b.1 ∧ b.2 = a.2) (require c s provided called d arg)
      (require { c with task := u } { s with tool := v } provided called' e arg) := by
  unfold require
  cases hprov : provided.any (· == .str arg) with
  | true =>
    simp only [if_true]
    exact .pure ⟨h, rfl⟩
  | false =>
    simp only [Bool.false_eq_true, if_false]
    rw [h.given]
    cases hgiven : Entries.has d.given (s.inName arg) with
    | true =>
      have hgiven' : Entries.has d.given (Site.inName { s with tool := v } arg) := hgiven
      rw [hgiven']
      simp only [if_true]
      refine .lift_eq rfl fun sig _ => ?_
      exact (Logged.Follows.lift h.declare.addIn).bind fun _ _ hst => .pure ⟨hst, rfl⟩
    | false =>
      have hgiven' : Entries.has d.given (Site.inName { s with tool := v } arg) = false := hgiven
      rw [hgiven', harg.not_called hd.calls hprov hgiven, harg.not_called h.calls hprov hgiven]
      simp only [Bool.false_eq_true, if_false]
      have hinfer : Logged.Follows (fun a b => Alike m n a.1 b.1 ∧ b.2 = a.2)
          (if c.setting.options.noInference then pure (d, [])
            else infer c s.index s.tool arg (s.inName arg) d)
          (if c.setting.options.noInference then pure (e, []) else
            infer { c with task := u } s.index v arg (s.inName arg) e) := by
        split
        · exact .pure ⟨h, rfl⟩
        · exact infer_follows h ht htest
      cases called.contains arg <;> cases called'.contains arg <;> exact hinfer

theorem requireAll_follows (called called' : List String) (h : Alike m n d e)
    (ht : ToolAlike s.tool v) (htest : c.setting.testing) (hin : d.HasIn s.index) (hd : Ordinary d)
    (hargs : ∀ a ∈ args, Settled c s provided d a) :
    Logged.Follows (fun a b => Alike m n a.1 b.1 ∧ b.2 = a.2)
      (requireAll c s provided called args d)
      (requireAll { c with task := u } { s with tool := v } provided called' args e) := by
  induction args generalizing d e with
  | nil => exact .pure ⟨h, rfl⟩
  | cons arg args ih =>
    have harg := hargs arg List.mem_cons_self
    refine ((require_follows called called' h ht htest hd harg).and_left fun r hr =>
      require_supplied hin hr).bind ?_
    rintro ⟨d', ids⟩ ⟨e', _⟩ ⟨⟨f, hf, hcore, -⟩, hde, rfl⟩
    dsimp only
    split
    · refine (Logged.Follows.print _ _).bind fun _ _ _ => ?_
      exact (Logged.Follows.printIf _ _ _ _).bind fun _ _ _ => .pure ⟨hde, rfl⟩
    · exact ih hde ((hf.rebinds hcore).keeps_in hin)
        ((hf.ordinary harg hd).of_core hcore) fun a ha =>
        (hargs a (List.mem_cons_of_mem _ ha)).mono (hf.frame.trans (Frame.of_core _ hcore)).given

end Required

end WorkflowInference.Compile

namespace WorkflowInference.Compile

open Logged Namespaces Keyed

section Prepared

variable {m n : Nat} {c : Scope} {u : Task} {s : Site} {tool v : Tool} {d e : Draft}
  {name key : String} {i : Nat}

section

variable (h : Alike m n d e)

include h

theorem Alike.addTool (ht : ToolAlike tool v) : Alike m n (d.addTool tool) (e.addTool v) :=
  { h with tools := List.rel_append h.tools (.cons ht .nil) }

theorem setRun_follows :
    Result.Follows (Alike m n) (setRun c name i b tool d)
      (setRun { c with task := u } name i b v e) := by
  refine (h.step i).run_isStr.bind fun run run' hrun => ?_
  rw [hrun]
  refine Result.Follows.bind (R := Alike m n) ?_ fun d' e' h' => ?_
  · split
    · exact h.setPart (by rw [maskValue_run, maskValue_run])
    · exact .pure h
  · rw [(h'.step i).holds (by decide)]
    refine .bind_same fun stated => ?_
    split
    · exact .pure h'
    · exact h'.setPart rfl

theorem tagStep_follows (hname : ∀ p ∈ pathInputs, isPathName (name ++ sep ++ p)) :
    Result.Follows (Alike m n) (tagStep c name i d) (tagStep { c with task := u } name i e) := by
  unfold tagStep
  rw [h.ins]
  refine .bind_same fun ins => ?_
  split
  · rename_i es
    refine Alike.setPart { h with calls := fun k hk => ?_ } rfl
    have hk : has (setTags c.setting.tags c.setting.cwd es u.namespaces name e.edgeCalls).2 k := hk
    rcases setTags_calls hk with hk | ⟨p, hp, rfl⟩
    · exact h.calls k hk
    · exact hname p hp
  · exact .throw

theorem prepare_follows (ht : ToolAlike tool v)
    (hname : key = interpreterKey → ∀ p ∈ pathInputs, isPathName (name ++ sep ++ p)) :
    Result.Follows (Alike m n) (prepare c name i key tool d)
      (prepare { c with task := u } name i key v e) := by
  refine (setRun_follows (h.addTool ht)).bind fun d' e' h' => ?_
  split
  · rename_i hkey
    exact tagStep_follows h' (hname hkey)
  · exact .pure h'

theorem addOwnNames_follows :
    Result.Follows (Alike m n) (addOwnNames i args d) (addOwnNames i args e) := by
  refine .foldlM h fun arg _ d e h => ?_
  unfold addOwnName
  rw [h.ins]
  refine .bind_same fun held => ?_
  split
  · exact .pure h
  · exact h.setIn

end

theorem drawStep_workflow (hcls : s.tool.cwl.field "class" = .ok cls)
    (hw : (cls == .str "Workflow")) : ∃ e, drawStep c s d = .ok e ∧ Drawn d e := by
  have hneg : ¬ (!(cls == .str "Workflow")) := by simp [hw]
  by_cases hshown :
    (s.isSub && decide ((c.task.namespaces.length : Int) < c.setting.graph.inlineDepth))
  · refine ⟨{ d with lastNode := join (c.path s) }, Result.bind_eq_ok.mpr ⟨cls, hcls, ?_⟩,
      ⟨rfl, rfl, rfl⟩⟩
    rw [if_neg hneg, if_pos hshown]
    rfl
  · have hnode : ∀ (x : Draft) (name label : String),
        ∃ y, x.addNode name (boxAttrs (.str label) (.str boxStyle) "lightblue") = .ok y :=
        fun _ _ _ => ⟨_, rfl⟩
    obtain ⟨y, hy⟩ := hnode { d with lastNode := Graph.shownName c.setting.graph (c.path s) }
      (Graph.shownName c.setting.graph (c.path s))
      (if c.setting.graph.labelSteps then s.name else s.key)
    refine ⟨y, Result.bind_eq_ok.mpr ⟨cls, hcls, ?_⟩, Drawn.trans ?_ (.addNode hy)⟩
    · rw [if_neg hneg, if_neg hshown]
      exact hy
    · exact ⟨rfl, rfl, rfl⟩

theorem drawStep_follows (h : Alike m n d e) (ht : ToolAlike s.tool v) :
    Result.Follows (Alike m n) (drawStep c s d)
      (drawStep { c with task := u } { s with tool := v } e) := by
  intro d' hd'
  obtain ⟨cls, hcls, -⟩ := Result.of_bind hd'
  have hcls' : v.cwl.field "class" = .ok cls := by rw [ht.field "class" (by simp), hcls]
  cases hw : cls == .str "Workflow" with
  | true =>
    obtain ⟨x, hx, hdx⟩ := drawStep_workflow (c := c) (d := d) hcls hw
    obtain ⟨y, hy, hey⟩ :=
      drawStep_workflow (c := { c with task := u }) (s := { s with tool := v }) (d := e) hcls' hw
    rw [hd'] at hx
    cases hx
    exact ⟨y, hy, h.drawn hdx hey⟩
  | false =>
    have hfollows : Result.Follows (Alike m n) (drawStep c s d)
        (drawStep { c with task := u } { s with tool := v } e) := by
      refine .bind_eq (ht.field "class" (by simp)) fun a ha => ?_
      cases ha.symm.trans hcls
      rw [hw]
      refine Result.Follows.bind_same fun look => .bind_same fun label => .bind_same fun style => ?_
      refine Alike.addNode ?_
      exact { h with }
    exact hfollows d' hd'

theorem nameOutput_none (hx : anchorOf x = none) :
    nameOutput c s acc x = .ok (acc.1, acc.2 ++ [x]) := by
  unfold nameOutput
  split
  · rename_i k y
    have hy : under? y Yaml.anchorKey = none := by simpa [anchorOf] using hx
    rw [hy]
  · rfl

theorem nameOutputs_follows (h : Alike m n d e) (hanchors : anchorsOf (d.step s.index) = []) :
    Result.Follows (Alike m n) (nameOutputs c s d)
      (nameOutputs { c with task := u } { s with tool := v } e) := by
  unfold nameOutputs
  rw [(h.step s.index).holds (by decide)]
  refine .bind_same fun stated => ?_
  refine Result.Follows.bind (R := fun a b => anchorsOf (a.step s.index) = [] ∧ Alike m n a b) ?_ ?_
  · split
    · exact .pure ⟨hanchors, h⟩
    · refine (h.setPart rfl).and_left fun d' hd' => ?_
      obtain ⟨es, hes, rfl⟩ := Draft.setPart_eq_ok hd'
      rw [Draft.step_setStep _ (Draft.lt_length_of_step hes)]
      simp [anchorsOf, outEntries, Doc.list?]
  · rintro d' e' ⟨hanchors', h'⟩
    rw [(h'.step s.index).field (by decide)]
    refine .bind_eq rfl fun out hout => .bind_same fun _ => ?_
    refine Result.Follows.bind (R := fun a b => Alike m n a.1 b.1 ∧ b.2 = a.2)
      (.foldlM ⟨h', rfl⟩ ?_) ?_
    · rintro x hx ⟨d₁, xs⟩ ⟨e₁, _⟩ ⟨h₁, rfl⟩
      have hnone : anchorOf x = none := by
        refine List.filterMap_eq_nil_iff.mp hanchors' x ?_
        rw [outEntries, field_eq_ok.mp hout]
        exact hx
      rw [nameOutput_none hnone, nameOutput_none hnone]
      exact .pure ⟨h₁, rfl⟩
    · rintro ⟨d₁, xs⟩ ⟨e₁, _⟩ ⟨h₁, rfl⟩
      exact h₁.setPart rfl

theorem addOutputs_follows (h : Alike m n d e) (ht : ToolAlike s.tool v) :
    Logged.Follows (Alike m n) (addOutputs s d) (addOutputs { s with tool := v } e) := by
  unfold addOutputs
  rw [ht.field "outputs" (by simp)]
  refine .lift_eq rfl fun outs _ => .lift_eq rfl fun sigs _ => ?_
  refine (Logged.Follows.printIf _ _ _ _).bind fun _ _ _ => ?_
  refine (Logged.Follows.lift (h.step s.index).addOut).bind fun x y hxy => .pure ?_
  have h' := h.setStep (i := s.index) hxy
  exact { h' with outputs := congrArg (· ++ [sigs]) h'.outputs }

theorem guardStep_follows (h : Alike m n d e) :
    Logged.Follows (Alike m n) (guardStep c s required d)
      (guardStep { c with task := u } { s with tool := v } required e) := by
  unfold guardStep
  split
  · exact .pure h
  · rw [(h.step s.index).holds (by decide)]
    refine .lift_eq rfl fun guarded _ => ?_
    refine (Logged.Follows.printIf _ _ _ _).bind fun _ _ _ => ?_
    exact .lift (h.setPart rfl)

end Prepared

inductive EntryAlike : Doc × Doc → Doc × Doc → Prop
  | same (e : Doc × Doc) : EntryAlike e e
  | steps {xs ys : List Doc} (h : List.Forall₂ StepAlike xs ys) :
    EntryAlike (.str "steps", .list xs) (.str "steps", .list ys)

theorem EntryAlike.key (h : EntryAlike e f) : f.1 = e.1 := by
  cases h <;> rfl

def DocAlike (es fs : Entries) : Prop := List.Forall₂ EntryAlike es fs

namespace DocAlike

variable {k : String}

theorem refl (es : Entries) : DocAlike es es := List.forall₂_same.mpr fun e _ => .same e

variable (h : DocAlike es fs)

include h

theorem get? (hk : k ≠ "steps") : Entries.get? fs k = Entries.get? es k := by
  induction h with
  | nil => rfl
  | @cons a b es fs hab _ ih =>
    cases hab with
    | same =>
      obtain ⟨l, v⟩ := a
      cases l with
      | str s => simp only [Entries.get?, ih]
      | _ => exact ih
    | steps => simpa only [Entries.get?, if_neg hk.symm] using ih

theorem put_entry (hxy : EntryAlike (.str k, x) (.str k, y)) :
    DocAlike (Entries.put es k x) (Entries.put fs k y) := by
  induction h with
  | nil => exact .cons hxy .nil
  | @cons a b es fs hab hrest ih =>
    obtain ⟨_, v⟩ := a
    obtain ⟨l, w⟩ := b
    obtain rfl := hab.key
    by_cases hl : l = .str k
    · subst hl
      simpa only [Entries.put, if_true] using .cons hxy hrest
    · rw [Entries.put_cons_ne hl, Entries.put_cons_ne hl]
      exact .cons hab ih

theorem put : DocAlike (Entries.put es k x) (Entries.put fs k x) := h.put_entry (.same _)

theorem put_steps (hxy : List.Forall₂ StepAlike xs ys) :
    DocAlike (Entries.put es "steps" (.list xs)) (Entries.put fs "steps" (.list ys)) :=
  h.put_entry (.steps hxy)

end DocAlike

structure ResultAlike (m n : Nat) (r s : Compiled) : Prop where
  yml : s.tree.part.yml = r.tree.part.yml
  cwl : ∃ es fs, r.tree.part.cwl = .map es ∧ s.tree.part.cwl = .map fs ∧ DocAlike es fs
  given : s.env.given = r.env.given
  calls : ∀ k, has s.env.edgeCalls k → isPathName k
  graphs : r.graphs.length = m
  graphs' : s.graphs.length = n

theorem ResultAlike.tool (h : ResultAlike m n r s) (path : String) :
    ToolAlike ⟨path, r.tree.part.cwl⟩ ⟨path, s.tree.part.cwl⟩ := by
  obtain ⟨es, fs, hes, hfs, hdoc⟩ := h.cwl
  refine ⟨rfl, fun k hk => ?_⟩
  have hk : k ≠ "steps" := by rcases hk with rfl | rfl | rfl <;> decide
  change s.tree.part.cwl.field k = r.tree.part.cwl.field k
  rw [hes, hfs, Doc.field, hdoc.get? hk, Doc.field]

section Brought

variable {m n : Nat} {c : Scope} {u : Task} {d e : Draft} {i : Nat} {key name space : String}

theorem Alike.after {r s : Compiled} {notes step : Doc} (h : Alike m n d e)
    (hr : ResultAlike (m + 1) (n + 1) r s) :
    Alike m n (takeUp c name r.env (d.after i r notes step))
      (takeUp { c with task := u } name s.env (e.after i s notes step)) where
  tree := h.tree
  notes := rfl
  inputs := h.inputs
  given := by
    change Entries.update e.given _ = Entries.update d.given _
    rw [h.given, hr.given]
  outputs := h.outputs
  steps := (h.setStep (.refl step)).steps
  tools := h.tools
  firsts := by simp [takeUp, Draft.after, h.firsts]
  calls := by
    intro k hk
    rcases has_update.mp hk with hk | hk
    · exact h.calls k hk
    · exact hr.calls k hk
  graphs := by simp [takeUp, Draft.after, hr.graphs]
  graphs' := by simp [takeUp, Draft.after, hr.graphs']

theorem noteAfter_follows :
    Logged.Follows Eq (noteAfter i key old new notes note)
      (noteAfter i key old new notes note) := by
  unfold noteAfter
  split
  · exact .pure rfl
  · refine (Logged.Follows.print _ _).bind fun _ _ _ => ?_
    exact .lift_eq rfl fun wic _ => .lift_eq rfl fun es _ => .pure rfl

theorem findTool_follows (h : Alike m n d e) (hstep : e.step i = d.step i) :
    Result.Follows (fun a b => Alike m n a.1 b.1 ∧ b.2 = a.2) (findTool c i key name space d)
      (findTool { c with task := u } i key name space e) := by
  unfold findTool
  rw [hstep]
  refine .bind_same fun run => ?_
  dsimp only
  split
  · exact .throw
  · exact .pure ⟨{ h with }, rfl⟩

end Brought

section Step

variable {sub' : Compiler} {m n : Nat} {c : Scope} {u : Task} {i : Nat} {key : String}
  {d d' e : Draft} {run : StepRun sub c i key d d'}

def Echoed (sub' : Compiler) (m n : Nat) (run : StepRun sub c i key d d') : Prop :=
  ∀ (inner : SubRun run) (w : Task), w.path = key → w.yml = inner.yml →
    (∀ k, has w.edgeCalls k → isPathName k) → w.graphs.length = n + 1 →
      (sub' w).Comes (ResultAlike (m + 1) (n + 1) inner.result)

theorem bringIn_follows (h : Alike m n d e) (hstep : e.step i = d.step i)
    (hsub : Echoed sub' m n run) :
    (bringIn sub' { c with task := u } i key run.site.name run.space run.note e).Comes fun x =>
      Alike m n run.brought x.1 ∧ x.2.1 = run.inner ∧ ToolAlike run.tool x.2.2 := by
  unfold bringIn
  rcases run.brought_cases with ⟨⟨inner⟩⟩ | ⟨⟨tool⟩⟩
  · rw [if_pos inner.isSub]
    refine (surely_lift (field_eq_ok.mpr (hstep ▸ inner.found))).bind_comes ?_
    refine (surely_lift inner.graph_eq).bind_comes ?_
    refine (hsub inner _ rfl rfl h.calls (by simp [subTask, h.graphs'])).bind fun s hr => ?_
    have hnoted := noteAfter_follows _ inner.noting
    rw [← h.notes, ← hr.yml] at hnoted
    refine hnoted.bind ?_
    rintro _ rfl
    refine (surely_lift (hstep ▸ inner.giving)).bind_comes ((surely_pure _).comes ⟨?_, rfl, ?_⟩)
    · rw [inner.brought_eq]
      exact h.after hr
    · rw [inner.tool]
      exact hr.tool _
  · rcases bringIn_cases run.bringing with ⟨hkey, -⟩ | ⟨hkey, hinner, hfound⟩
    · rw [tool.isTool] at hkey
      cases hkey
    · obtain ⟨⟨e', _⟩, he', halike, rfl⟩ := findTool_follows (u := u) h hstep _ hfound
      rw [if_neg (by simp [hkey]), hinner]
      exact (surely_lift he').bind_comes ((surely_pure _).comes ⟨halike, rfl, .refl _⟩)

theorem requiredArgs_eq (ht : ToolAlike tool v) :
    requiredArgs v params = requiredArgs tool params := by
  unfold requiredArgs
  rw [ht.field "class" (by simp)]

theorem bindInputs_follows (hrun : OrdinaryStep run) (h : Alike m n run.prepared e)
    (ht : ToolAlike run.tool v) (htest : c.setting.testing) :
    (bindInputs { c with task := u } { run.site with tool := v } run.provided e).Comes fun x =>
      Alike m n run.bound x.1 ∧ x.2 = (none, run.required) := by
  have howning : Result.Follows (Alike m n)
      (if run.cls == .str "Workflow" then addOwnNames i run.required run.prepared
        else .ok run.prepared)
      (if run.cls == .str "Workflow" then addOwnNames i run.required e else .ok e) := by
    split
    · exact addOwnNames_follows h
    · exact .pure h
  obtain ⟨owned, howned, hown⟩ := howning _ run.owning
  obtain ⟨drawn, hdrawing, hdrawn⟩ :=
    drawStep_follows (u := u) (s := run.site) hown ht _ run.drawing
  have hanchors : anchorsOf (run.drawn.step i) = [] := by
    rw [run.anchors_eq]
    exact hrun.brought_plain.1.anchorsOf
  obtain ⟨named, hnaming, hnamed⟩ :=
    nameOutputs_follows (u := u) (s := run.site) (v := v) hdrawn hanchors _ run.naming
  have hrequired : requiredArgs v run.params = .ok run.required := by
    rw [requiredArgs_eq ht, run.requiring]
  have hcls : v.cwl.field "class" = .ok run.cls := by
    rw [ht.field "class" (by simp), field_eq_ok.mpr run.cls_eq]
  refine (surely_lift hrequired).bind_comes ((surely_lift hcls).bind_comes ?_)
  refine (surely_lift howned).bind_comes ((surely_lift hdrawing).bind_comes ?_)
  refine (surely_lift hnaming).bind_comes ?_
  refine (Logged.Follows.chain (R := fun a b => Open i a ∧ Alike m n a b) run.taking
    ⟨hrun.named_open, hnamed⟩ ?_).bind ?_
  · rintro k - a b ⟨hopen, hab⟩
    exact (provide_follows hab hopen.values).and_left fun a' ha' =>
      hopen.takes ⟨hopen.bound, provide_taken ha'⟩
  · rintro taken ⟨-, htaken⟩
    refine (requireAll_follows (s := run.site) _ _ htaken ht htest run.taken_in
      hrun.taken_open.ordinary hrun.settled _ run.binding).bind ?_
    rintro ⟨bound, _⟩ ⟨hbound, rfl⟩
    exact (surely_pure _).comes ⟨hbound, rfl⟩

theorem compileStep_follows (hrun : OrdinaryStep run) (h : Alike m n d e)
    (hstep : e.step i = d.step i) (htest : c.setting.testing) (hsub : Echoed sub' m n run) :
    (compileStep sub' { c with task := u } i key e).Comes fun x => Alike m n d' x.1 ∧
      x.2 = none := by
  have hnoted : noteAt e.notes i key = .ok (run.note, run.space) := by rw [h.notes, run.noted]
  refine (surely_lift hnoted).bind_comes ((bringIn_follows h hstep hsub).bind ?_)
  rintro ⟨brought, _, v⟩ ⟨hbrought, rfl, htool⟩
  have hname : key = interpreterKey → ∀ p ∈ pathInputs, isPathName (run.site.name ++ sep ++ p) := by
    rintro rfl p hp
    exact isPathName_nameAt hp
  obtain ⟨prepared, hpreparing, hprepared⟩ :=
    prepare_follows (u := u) hbrought htool hname _ run.preparing
  have hprovided : (do (← prepared.ins i).members : Result (List Doc)) = .ok run.provided := by
    rw [hprepared.ins]
    exact Result.bind_eq_ok.mpr ⟨run.ins, field_eq_ok.mpr run.ins_eq, run.members_eq⟩
  have hparams : v.cwl.field "inputs" = .ok run.params := by
    rw [htool.field "inputs" (by simp), field_eq_ok.mpr run.params_eq]
  refine (surely_lift hpreparing).bind_comes ((surely_lift hprovided).bind_comes ?_)
  refine (surely_lift hparams).bind_comes ((bindInputs_follows hrun hprepared htool htest).bind ?_)
  rintro ⟨bound, _⟩ ⟨hbound, rfl⟩
  refine (addOutputs_follows (s := run.site) hbound htool _ run.closing).bind
    fun closed hclosed => ?_
  refine (guardStep_follows (s := run.site) (v := v) hclosed _ run.guarding).bind
    fun last hlast => ?_
  exact (surely_pure _).comes ⟨hlast, rfl⟩

end Step

end WorkflowInference.Compile
