import WorkflowInference.Proofs.Compile.Alike.Steps
import WorkflowInference.Proofs.Compile.Closure
import WorkflowInference.Proofs.Compile.Unique

/-!
Independence of the embedding: a workflow without explicit edges compiles by itself to the document
that it has inside of another workflow, apart from the paths of the documents that its steps run.
-/
namespace WorkflowInference.Compile

open Entries Logged Workflow List Option

variable {notes wic : Doc} {keys : List String}

section Outputs

variable {m n : Nat} {c : Scope} {u : Task} {tool v : Tool} {d e : Draft}
  {step out : String} {i : Nat}

theorem drawOutput_drawn (c : Scope) (d : Draft) (step out : String)
    (hcls : tool.cwl.field "class" = .ok cls) :
    ∃ e, drawOutput c tool step d out = .ok e ∧ Drawn d e := by
  unfold drawOutput
  split
  · exact ⟨d, rfl, .refl d⟩
  · rw [hcls]
    dsimp only [bind, Except.bind]
    split
    · exact ⟨_, rfl, .onOwn d _⟩
    · exact ⟨d, rfl, .refl d⟩

theorem drawOutput_both {R : Draft → Draft → Prop} (hset : c'.setting = c.setting)
    (hsame : v.cwl.field "class" = tool.cwl.field "class")
    (hR : ∀ d' e', Drawn d d' → Drawn e e' → R d' e') :
    Result.Follows R (drawOutput c tool step d out) (drawOutput c' v step e out) := by
  intro d' hd'
  by_cases hshow : (!c.setting.graph.showOutputs)
  · unfold drawOutput at hd' ⊢
    rw [if_pos hshow] at hd'
    rw [hset, if_pos hshow]
    cases hd'
    exact ⟨e, rfl, hR d e (.refl d) (.refl e)⟩
  · have hcls : ∃ cls, tool.cwl.field "class" = .ok cls := by
      unfold drawOutput at hd'
      rw [if_neg hshow] at hd'
      obtain ⟨cls, hcls, -⟩ := Result.of_bind hd'
      exact ⟨cls, hcls⟩
    obtain ⟨cls, hcls⟩ := hcls
    obtain ⟨x, hx, hdx⟩ := drawOutput_drawn c d step out hcls
    obtain ⟨y, hy, hey⟩ := drawOutput_drawn c' e step out (hsame.trans hcls)
    rw [hd'] at hx
    cases hx
    exact ⟨y, hy, hR d' y hdx hey⟩

theorem drawOutput_follows (h : Alike m n d e) (ht : ToolAlike tool v) :
    Result.Follows (Alike m n) (drawOutput c tool step d out)
      (drawOutput { c with task := u } v step e out) :=
  drawOutput_both rfl (ht.field "class" (by simp)) fun _ _ => h.drawn

theorem stepOutputs_follows (h : Alike m n d e) :
    Result.Follows (fun a b => Alike m n a.1 b.1 ∧ b.2 = a.2) (stepOutputs c (d, es) i)
      (stepOutputs { c with task := u } (e, es) i) := by
  have htool : Result.Follows ToolAlike (d.tools[i]?.elim (.error .outOfRange) Except.ok)
      (e.tools[i]?.elim (.error .outOfRange) Except.ok) := by
    rcases h.tool i with ⟨hx, hy⟩ | ⟨_, _, hx, hy, hxy⟩
    · rw [hx, hy]
      exact .throw
    · rw [hx, hy]
      exact .pure hxy
  unfold stepOutputs
  refine htool.bind fun tool v ht => ?_
  dsimp only
  have hname : outStepName { c with task := u } i v = outStepName c i tool := by
    rw [outStepName, ht.runPath, outStepName]
  rw [hname]
  generalize outStepName c i tool = step
  refine .bind_eq (by rw [(h.step i).field (by decide)]) fun names _ => ?_
  have hdrawn : Result.Follows (Alike m n) (names.foldlM (drawOutput c tool step) d)
      (names.foldlM (drawOutput { c with task := u } v step) e) :=
    Result.Follows.foldlM h fun out _ d e h => drawOutput_follows h ht
  refine hdrawn.bind fun d' e' h' => ?_
  rw [(h'.step i).holds (by decide)]
  refine .bind_same fun scattered => ?_
  rw [h'.outputs]
  exact .bind_same fun new => .pure ⟨h', rfl⟩

theorem workflowOutputs_follows (h : Alike m n d e) :
    Result.Follows (fun a b => Alike m n a.1 b.1 ∧ b.2 = a.2) (workflowOutputs c d)
      (workflowOutputs { c with task := u } e) := by
  refine Result.Follows.foldlM ⟨h, rfl⟩ ?_
  rintro i - ⟨d, es⟩ ⟨e, _⟩ ⟨h, rfl⟩
  exact stepOutputs_follows h

end Outputs

section Conclusion

variable {m n : Nat} {c : Scope} {u : Task} {d e : Draft} {i : Nat} {s t : Doc} {xs ys : List Doc}

theorem stepFeatures_eq (h : StepAlike s t) :
    stepFeatures notes i key t = stepFeatures notes i key s := by
  unfold stepFeatures
  rw [h.holds (by decide), h.holds (by decide), h.fieldD (by decide)]

theorem requireId_eq (h : StepAlike s t) : requireId context t = requireId context s := by
  rcases h.cases with rfl | ⟨es, fs, rfl, rfl, hm⟩
  · rfl
  · rw [requireId, StepAlike.get? hm (by decide), requireId]

theorem nameStep_follows (h : Alike m n d e) :
    Result.Follows StepAlike (nameStep c d i) (nameStep { c with task := u } e i) := by
  unfold nameStep
  rw [h.notes, requireId_eq (h.step i)]
  refine .bind_same fun noted => .bind_same fun _ => ?_
  rcases (h.step i).cases with heq | ⟨es, fs, hes, hfs, hm⟩
  · rw [← heq]
    exact .bind_same fun es => .pure (.refl _)
  · rw [hes, hfs]
    refine .pure (congrArg Doc.map ?_)
    have hrest : remove (mask es) "id" = remove (mask fs) "id" := by rw [hm]
    rw [← mask_remove, ← mask_remove] at hrest
    simp only [mask, map_cons, cons.injEq] at hrest ⊢
    exact ⟨rfl, hrest⟩

theorem each_eq (hp : p.field "steps" = .ok (.list xs))
    (hq : q.field "steps" = .ok (.list ys)) (h : List.Forall₂ StepAlike xs ys) :
    addRequirements.each q notes i keys = addRequirements.each p notes i keys := by
  induction keys generalizing i with
  | nil => rfl
  | cons key keys ih =>
    unfold addRequirements.each
    rw [hp, hq, ih]
    dsimp only [bind, Except.bind]
    rcases forall₂_getElem? h i with ⟨hx, hy⟩ | ⟨x, y, hx, hy, hxy⟩
    · rw [hx, hy]
    · simp only [hx, hy, elim_some, stepFeatures_eq hxy]

theorem addRequirements_follows (h : List.Forall₂ StepAlike xs ys) :
    Result.Follows (fun a b => ∃ es fs, a = .map es ∧ b = .map fs ∧ DocAlike es fs)
      (addRequirements (.map (put es "steps" (.list xs))) keys notes b)
      (addRequirements (.map (put es "steps" (.list ys))) keys notes b) := by
  have hdoc : DocAlike (put es "steps" (.list xs)) (put es "steps" (.list ys)) :=
    (DocAlike.refl es).put_steps h
  unfold addRequirements
  have hsteps : ∀ zs : List Doc, (Doc.map (put es "steps" (.list zs))).field "steps" =
      .ok (.list zs) := by
    intro zs
    rw [field_eq_ok, under?_map, get?_put_self]
  rw [each_eq (hsteps xs) (hsteps ys) h]
  refine .bind_same fun used => ?_
  dsimp only
  split
  · exact .pure ⟨_, _, rfl, rfl, hdoc⟩
  · refine Result.Follows.bind (R := fun a b => a = put es "steps" (.list xs) ∧
      b = put es "steps" (.list ys))
      (.pure ⟨rfl, rfl⟩) ?_
    rintro _ _ ⟨rfl, rfl⟩
    rw [hdoc.get? (by decide)]
    split
    · exact .pure ⟨_, _, rfl, rfl, hdoc.put⟩
    · exact .pure ⟨_, _, rfl, rfl, hdoc.put⟩
    · exact .throw

theorem ranks_follows :
    Result.Follows (fun _ _ => True) (ranks c wic) (ranks { c with task := u } wic) := by
  refine .bind_same fun look => .bind_same fun same => .bind_same fun pairs => ?_
  refine (Result.Follows.mapM (R := fun _ _ => True) fun p _ => ?_).imp fun _ _ _ => trivial
  split
  · exact .bind_same fun place => .pure trivial
  · exact .throw

theorem firstName_follows (h : firsts'.length = firsts.length) {isSub : String → Bool} :
    Result.Follows (fun _ _ => True) (firstName firsts stem ns keys isSub)
      (firstName firsts' stem ns' keys isSub) := by
  unfold firstName
  split
  · exact .throw
  · split
    · cases firsts with
      | nil => exact .throw
      | cons f fs =>
        cases firsts' with
        | nil => simp at h
        | cons f' fs' => exact .pure trivial
    · exact .pure trivial

theorem ownOutputs_follows :
    Result.Follows (fun _ _ => True) (ownOutputs outs p) (ownOutputs outs q) := by
  refine .bind_same fun es => .foldlM trivial fun e _ p q _ => .bind_same fun src => ?_
  split
  · exact .pure trivial
  · exact .throw

theorem finish_follows (h : Alike m n d e) :
    Result.Follows (fun a b => Alike m n a.1 b.1 ∧ DocAlike a.2.1 b.2.1) (finish c wic d)
      (finish { c with task := u } wic e) := by
  unfold finish
  refine ranks_follows.bind fun _ _ _ => (firstName_follows h.firsts).bind fun _ _ _ => ?_
  rw [h.ownInputs]
  refine .bind_same fun own => ?_
  rw [h.tree, h.inputs]
  refine ownOutputs_follows.bind fun _ _ _ => ?_
  have hdrawn : ∀ f g, Alike m n (d.onOwn f) (e.onOwn g) :=
    fun f g => h.drawn (.onOwn d f) (.onOwn e g)
  refine Result.Follows.bind (workflowOutputs_follows (m := m) (n := n) ?_) ?_
  · exact { hdrawn _ _ with }
  rintro ⟨d', outs⟩ ⟨e', _⟩ ⟨h', rfl⟩
  refine .bind_same fun stated => ?_
  rw [h.notes]
  refine (addRequirements_follows h.steps).bind ?_
  rintro _ _ ⟨es, fs, rfl, rfl, hdoc⟩
  refine (Result.Follows.mapM fun i _ => nameStep_follows h).bind fun xs ys hxy => ?_
  exact .pure ⟨h', hdoc.put_steps hxy⟩

theorem conclude_follows (h : Alike m n d e) (hyml : u.yml = c.task.yml) :
    Result.Follows (ResultAlike m n) (conclude c wic d) (conclude { c with task := u } wic e) := by
  unfold conclude
  refine (finish_follows h).bind fun x y hxy => ?_
  rw [h.given]
  refine .bind_same fun job => .pure ?_
  exact ⟨hyml, ⟨_, _, rfl, rfl, hxy.2⟩, hxy.1.given, hxy.1.calls, hxy.1.graphs, hxy.1.graphs'⟩

end Conclusion

theorem Alike.start (hcalls : ∀ k, Keyed.has w.edgeCalls k → isPathName k) :
    Alike t.graphs.length w.graphs.length (.start t o) (.start w o) where
  tree := rfl
  notes := rfl
  inputs := rfl
  given := rfl
  outputs := rfl
  steps := forall₂_same.mpr fun s _ => .refl s
  tools := .nil
  firsts := rfl
  calls := hcalls
  graphs := rfl
  graphs' := rfl

/-- A workflow that is compiled at one place, with so many graphs around it, compiles at another. -/
def Repeats (sub' : Compiler) (t : Task) (r : Compiled) (n : Nat) : Prop :=
  ∀ w : Task, Path.stem w.path = Path.stem t.path → w.yml = t.yml →
    (∀ k, Keyed.has w.edgeCalls k → isPathName k) →
    w.graphs.length = n → (sub' w).Comes (ResultAlike t.graphs.length n r)

section Once

variable {set : Setting} {k : Nat} {t : Task} {r : Compiled}

def Deeper (set : Setting) (k : Nat) (t : Task) (r : Compiled) (i : Nat) (v : String × Doc) :
    Prop :=
  ∃ u s, (compileAt set k u).Yields s ∧ r.tree.subs[i]? = some s.tree ∧ (u.path, u.yml) = v ∧
    OrdinaryTask u ∧ u.graphs.length = t.graphs.length + 1

theorem OnceRun.repeats (run : OnceRun (compileAt set k) set t r) (sub' : Compiler)
    (ht : OrdinaryTask t) (hun : Unaltered r.tree t.flow)
    (hn : Unambiguous set (withinIn (k + 1) t.flow)) (htest : set.testing)
    (hpath : Path.stem w.path = Path.stem t.path) (hyml : w.yml = t.yml)
    (hcalls : ∀ k, Keyed.has w.edgeCalls k → isPathName k)
    (hsub : ∀ i v u s, innerAt t.yml i = some v → Faithful set k u s → u.flow = v → OrdinaryTask u →
      u.graphs.length = t.graphs.length + 1 → Repeats sub' u s (w.graphs.length + 1)) :
    (compileOnce sub' set w).Comes (ResultAlike t.graphs.length w.graphs.length r) ∧
      ∀ i v, innerAt t.yml i = some v → Deeper set k t r i v := by
  -- what the steps that are left come to, from a draft that is alike, all steps come to
  have hlast := keeps_ordinary run ht hun hn (P := fun j d =>
    (∀ Q, (∀ e, Alike t.graphs.length w.graphs.length d e → (∀ l, j ≤ l → e.step l = d.step l) →
    (compileSteps sub' { run.scope with task := w } (run.start.keys.drop j) j e).Comes Q) →
    (compileSteps sub' { run.scope with task := w } run.start.keys 0 (.start w run.start)).Comes
    Q) ∧ d.graphs.length = t.graphs.length ∧ ∀ i v, i < j → innerAt t.yml i = some v →
    Deeper set k t r i v) ?_ ⟨fun Q hQ => hQ _ (.start hcalls) fun _ _ => rfl, rfl, fun _ _ hi =>
    absurd hi (Nat.not_lt_zero _)⟩
  · obtain ⟨hreach, -, hinner⟩ := hlast
    refine ⟨?_, fun i v hv => hinner i v (run.lt_of_innerAt hv) hv⟩
    have hsteps :=
        hreach (fun x => Alike t.graphs.length w.graphs.length run.last x.1 ∧ x.2 = none) (by
      intro e halike _
      rw [drop_length]
      exact (surely_pure _).comes ⟨halike, rfl⟩)
    refine (surely_printIf _ _).bind_comes ((openWorkflow_surely hyml run.opening).bind_comes ?_)
    rw [hpath]
    refine hsteps.bind ?_
    rintro ⟨e, _⟩ ⟨halike, rfl⟩
    obtain ⟨s, hs, hrs⟩ := conclude_follows (u := w) halike hyml _ run.concluding
    refine (surely_lift hs).bind_comes ((surely_printIf _ _).bind_comes ?_)
    exact (surely_pure _).comes hrs
  · rintro j d d' here hord ⟨hreach, hgraphs, hinner⟩
    have hdeeper : ∀ inner : SubRun here.head,
        OrdinaryTask (subTask run.scope here.key here.head.site.name inner.yml inner.graph d) ∧
        (subTask run.scope here.key here.head.site.name inner.yml inner.graph d).graphs.length =
        t.graphs.length + 1 :=
      fun inner => ⟨⟨hord.step.under? inner.found, hord.ordinary.calls⟩, by simp [subTask, hgraphs]⟩
    refine ⟨fun Q hQ => hreach Q fun e halike hlater => ?_, ?_, fun i v hi hv => ?_⟩
    · have hecho : Echoed sub' t.graphs.length w.graphs.length here.head := by
        intro inner v hv hvy hvc hvg
        obtain ⟨hu, hlen⟩ := hdeeper inner
        have hsame := hsub j _ _ _ (here.inner_spec inner).1 (here.inner_faithful hun inner) rfl hu
          hlen v (congrArg Path.stem hv) hvy hvc hvg
        rwa [hlen] at hsame
      have hdrop : run.start.keys.drop j = here.key :: run.start.keys.drop (j + 1) := by
        obtain ⟨hlt, hget⟩ := List.getElem?_eq_some_iff.mp here.key_eq
        rw [drop_eq_getElem_cons hlt, hget]
      rw [hdrop]
      have hhere := compileStep_follows (u := w) hord halike (hlater j (Nat.le_refl j)) htest hecho
      refine hhere.and_yields.bind ?_
      rintro ⟨e', _⟩ ⟨he', halike', rfl⟩
      obtain ⟨head'⟩ := compileStep_run he' rfl
      refine hQ e' halike' fun l hl => ?_
      rw [head'.frame.others l (by omega), here.head.frame.others l (by omega), hlater l (by omega)]
    · rw [← hgraphs]
      exact (here.grows hun).graphs.length_eq.symm
    · rcases Nat.lt_or_eq_of_le (Nat.le_of_lt_succ hi) with hi | rfl
      · exact hinner i v hi hv
      · obtain ⟨inner, hflow, hpart⟩ := here.exists_inner hv
        exact ⟨_, inner.result, inner.running, hpart, hflow, hdeeper inner⟩

end Once

section Nested

variable {set : Setting} {k j n : Nat} {t : Task} {r : Compiled}

theorem rounds_comes {P : Compiled → Prop} (h : (once t).Comes P)
    (hyml : ∀ r, P r → r.tree.part.yml = t.yml) : (rounds once n t).Comes P := by
  induction n with
  | zero => exact h
  | succ n ih =>
    refine h.bind fun r hr => ?_
    split
    · exact (surely_pure r).comes hr
    · rw [hyml r hr]
      exact ih

section

variable (htest : set.testing) (h : Faithful set k t r) (ht : OrdinaryTask t)
  (hn : Unambiguous set (withinIn k t.flow)) (hlen : t.graphs.length ≤ maxRounds + 1)

include htest h ht hn hlen

theorem Faithful.repeats (hle : n ≤ t.graphs.length) (hdepth : t.yml.depth < j) :
    Repeats (compileAt set j) t r n := by
  induction h using Faithful.induction generalizing n j with
  | step h run ih =>
    obtain ⟨j, rfl⟩ := Nat.exists_eq_succ_of_ne_zero (Nat.ne_of_gt (Nat.zero_lt_of_lt hdepth))
    have hlen := (compileAt_rounds h.yields).1
    rintro w hpath hyml hcalls rfl
    obtain ⟨hcomes, -⟩ := run.repeats (compileAt set j) ht h.kept hn htest hpath hyml hcalls (by
      rintro i _ u s hv hs rfl hu hulen
      refine ih hs hu (hn.inner hv) (by omega) (by omega) ?_
      exact Nat.lt_of_lt_of_le (innerAt_depth hv) (Nat.le_of_lt_succ hdepth))
    refine (rounds_comes hcomes fun s hr => by rw [hr.yml, h.kept.yml, hyml]).bind fun s hr => ?_
    have hne : w.graphs.length ≠ maxRounds + 1 := by omega
    rw [if_neg hne]
    exact (surely_pure s).comes hr

theorem Faithful.inner_comes (hpos : 0 < t.graphs.length)
    (hw : subAt t.flow is = some w) (hstem : Path.stem v.path = Path.stem w.1) (hyml : v.yml = w.2)
    (hcalls : v.edgeCalls = []) (hroot : v.graphs.length = 1) (hdepth : v.yml.depth < j) :
    ∃ q m, r.tree.at? is = some q.tree ∧ (compileAt set j v).Comes (ResultAlike m 1 q) := by
  induction is generalizing k t r with
  | nil =>
    cases hw
    have hcomes := repeats (n := 1) htest h ht hn hlen hpos (hyml ▸ hdepth) v hstem hyml
      (by simp [hcalls, Keyed.has]) hroot
    exact ⟨r, _, rfl, hcomes⟩
  | cons i is ih =>
    obtain ⟨x, hx, hw⟩ := bind_eq_some_iff.mp hw
    obtain ⟨k, rfl⟩ := compileAt_succ h.yields
    obtain ⟨run⟩ := h.once
    have hlen := (compileAt_rounds h.yields).1
    have hinner := (run.repeats (compileAt set t.yml.depth) ht h.kept hn htest rfl rfl ht.calls (by
      rintro i _ u s hv hs rfl hu hulen
      exact repeats htest hs hu (hn.inner hv) (by omega) (by omega)
        (innerAt_depth hv))).2
    obtain ⟨u, s, hs, hpart, rfl, hu, hulen⟩ := hinner i x hx
    obtain ⟨q, m, hq, hcomes⟩ :=
      ih ⟨hs, h.kept.inner hx hpart⟩ hu (hn.inner hx) (by omega) (by omega) hw
    refine ⟨q, m, ?_, hcomes⟩
    rw [PartTree.at?, hpart, bind_some, hq]

end

end Nested

theorem purgeEntries_mask (es : Entries) :
    Doc.purgeEntries (.str "run") (mask es) = Doc.purgeEntries (.str "run") es := by
  induction es with
  | nil => rfl
  | cons e es ih =>
    obtain ⟨l, v⟩ := e
    change Doc.purgeEntries _ ((l, maskValue l v) :: mask es) = _
    rw [Doc.purgeEntries, Doc.purgeEntries, ih]
    split
    · rfl
    · rename_i hl
      have : (l == .str "run") = false := Bool.eq_false_iff.mpr hl
      rw [maskValue, this, Bool.false_and]
      rfl

theorem StepAlike.purge (h : StepAlike s t) :
    Doc.purge (.str "run") t = Doc.purge (.str "run") s := by
  rcases h.cases with rfl | ⟨es, fs, rfl, rfl, hm⟩
  · rfl
  · rw [Doc.purge, Doc.purge, ← purgeEntries_mask, ← hm, purgeEntries_mask]

theorem DocAlike.purge (h : DocAlike es fs) :
    Doc.purgeEntries (.str "run") fs = Doc.purgeEntries (.str "run") es := by
  induction h with
  | nil => rfl
  | cons hab _ ih =>
    cases hab with
    | same => rw [Doc.purgeEntries, Doc.purgeEntries, ih]
    | @steps xs ys hxy =>
      have hitems : Doc.purgeItems (.str "run") ys = Doc.purgeItems (.str "run") xs := by
        induction hxy with
        | nil => rfl
        | cons hst _ ih => rw [Doc.purgeItems, Doc.purgeItems, hst.purge, ih]
      rw [Doc.purgeEntries, Doc.purgeEntries, ih, Doc.purge, Doc.purge, hitems]

theorem ResultAlike.purge (h : ResultAlike m n r s) :
    Doc.purge (.str "run") s.tree.part.cwl = Doc.purge (.str "run") r.tree.part.cwl := by
  obtain ⟨es, fs, hes, hfs, hdoc⟩ := h.cwl
  rw [hes, hfs, Doc.purge, Doc.purge, hdoc.purge]

/-- Unless steps were put in, each workflow inside a workflow without explicit edges compiles by
itself, to the document that it has there, paths of documents to run removed. It may go on for ever,
as its mappings are not those that it has inside. -/
theorem compile_embedded {set : Setting} {path p : String} {yml : Doc} {graph graph' : Graph}
    {r : Compiled} {is : List Nat} {w : String × Doc} (htest : set.testing = true)
    (halias : Doc.mentions (.str Yaml.aliasKey) yml = false)
    (hanchor : Doc.mentions (.str Yaml.anchorKey) yml = false)
    (hnames : Unambiguous set (within path yml)) (h : (compile set (.root path yml graph)).Yields r)
    (hinsert : set.options.insertSteps = true → Unaltered r.tree (path, yml))
    (hw : subAt (path, yml) is = some w) (hp : Path.stem p = Path.stem w.1)
    (hends : ¬ (compile set (.root p w.2 graph')).Endless) :
    ∃ q s, r.tree.at? is = some q ∧ (compile set (.root p w.2 graph')).Surely s ∧
      Doc.purge (.str "run") s.tree.part.cwl = Doc.purge (.str "run") q.part.cwl := by
  obtain ⟨r', hr', h⟩ := h.of_bind
  have htree : r.tree = r'.tree := (congrArg Compiled.tree (Logged.yields_pure.mp h)).symm
  rw [htree] at hinsert ⊢
  have hun : Unaltered r'.tree (path, yml) := by
    cases hno : set.options.insertSteps with
    | false => exact compileAt_unaltered hno hr'
    | true => exact hinsert hno
  obtain ⟨q, m, hq, hcomes⟩ := Faithful.inner_comes (j := w.2.depth + 2)
    (v := .root p w.2 graph') htest ⟨hr', hun⟩ (OrdinaryTask.root ⟨halias, hanchor⟩) hnames
    (by simp [Task.root, maxRounds]) (by simp [Task.root]) hw hp rfl rfl rfl (by simp [Task.root])
  have hwhole : (compile set (.root p w.2 graph')).Comes fun s =>
      Doc.purge (.str "run") s.tree.part.cwl = Doc.purge (.str "run") q.tree.part.cwl :=
    hcomes.bind fun s hqs => (surely_pure _).comes hqs.purge
  obtain ⟨s, hs, hqs⟩ := hwhole.surely hends
  exact ⟨q.tree, s, hq, hs, hqs⟩

open Sample in
theorem compile_embedded_pipeline : ∃ r w q s,
    (compile (setting [echoTool, catTool]) (.root "wf.wic" pipeline (Graph.empty "" ""))).Yields r ∧
    subAt ("wf.wic", pipeline) [1] = some w ∧ r.tree.at? [1] = some q ∧
    (compile (setting [echoTool, catTool]) (.root w.1 w.2 (Graph.empty "" ""))).Surely s ∧
    Doc.purge (.str "run") s.tree.part.cwl = Doc.purge (.str "run") q.part.cwl := by
  have hsome : (compiled (setting [echoTool, catTool]) "wf.wic" pipeline).isSome = true := by
    decide +kernel
  obtain ⟨r, hr⟩ := Logged.yields_of_isSome hsome
  have hinner : ((subAt ("wf.wic", pipeline) [1]).any fun w =>
      (compiled (setting [echoTool, catTool]) w.1 w.2).isSome) = true := by decide +kernel
  obtain ⟨w, hw, halone⟩ := (Option.any_eq_true _ _).mp hinner
  obtain ⟨_, halone⟩ := Logged.yields_of_isSome halone
  obtain ⟨q, s, hq, hs, hqs⟩ := compile_embedded rfl (by decide +kernel) (by decide +kernel)
    ⟨by decide +kernel, by decide +kernel, by decide +kernel⟩ hr (fun h =>
    absurd h (by decide)) hw rfl fun hend => hend.not_yields halone
  exact ⟨r, w, q, s, hr, hw, hq, hs, hqs⟩

namespace Sample

def buried : Doc :=
  workflow [step "cwl_subinterpreter" [], inner "mid.wic" (workflow [inner "sub.wic" (Doc.obj [
    ("inputs", Doc.obj [(pathName, text)]),
      ("steps", .list [step "echo" [("in", Doc.obj [("m", .str pathName)])]])])])]

def byName (arg : String) (cwl : Doc) : Bool :=
  (((under? cwl "steps").bind Doc.list?).getD []).any fun s =>
    (Entries.getD (bindings s) arg .null).isStr

theorem compiled_of_surely {set : Setting} {path : String} {yml : Doc} {r : Compiled}
    (h : (compile set (.root path yml (Graph.empty "" ""))).Surely r) :
    compiled set path yml = some r := by
  obtain ⟨u, hu⟩ := h {}
  rw [compiled, hu]
  rfl

end Sample

open Sample in
/-- Without the condition on names, a workflow may be compiled otherwise inside of another one. -/
theorem not_compile_embedded :
    ¬ ∀ (set : Setting) (path : String) (yml : Doc) (graph : Graph) (r : Compiled) (is : List Nat)
      (w : String × Doc), set.testing = true → Doc.mentions (.str Yaml.aliasKey) yml = false →
      Doc.mentions (.str Yaml.anchorKey) yml = false →
      (compile set (.root path yml graph)).Yields r → subAt (path, yml) is = some w →
      ∃ q s, r.tree.at? is = some q ∧ (compile set (.root w.1 w.2 (Graph.empty "" ""))).Surely s ∧
      Doc.purge (.str "run") s.tree.part.cwl = Doc.purge (.str "run") q.part.cwl := by
  intro h
  have hdiffer : ((compiled (setting [interpreterTool, echoTool]) "wf.wic" buried).any fun r =>
      (subAt ("wf.wic", buried) [1]).any fun w => (r.tree.at? [1]).all fun q =>
        (compiled (setting [interpreterTool, echoTool]) w.1 w.2).all fun s =>
          byName pathName (Doc.purge (.str "run") s.tree.part.cwl) !=
            byName pathName (Doc.purge (.str "run") q.part.cwl)) = true := by decide +kernel
  obtain ⟨r, hr, hdiffer⟩ := Logged.yields_of_any hdiffer
  obtain ⟨w, hw, hdiffer⟩ := Option.any_eq_true _ _ |>.mp hdiffer
  obtain ⟨q, s, hq, hs, hqs⟩ := h _ _ _ _ r [1] w rfl (by decide +kernel) (by decide +kernel) hr hw
  rw [hq, Option.all_some, compiled_of_surely hs, Option.all_some, hqs] at hdiffer
  simp at hdiffer

end WorkflowInference.Compile
