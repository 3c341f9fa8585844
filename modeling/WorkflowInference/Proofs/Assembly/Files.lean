import WorkflowInference.Proofs.Assembly.Tools
import WorkflowInference.Proofs.Workflow.Canonical
import WorkflowInference.Proofs.Workflow.Inlining

/-!
Workflows in files. A workflow that is written into one file for each workflow in it is read back
from these files as the document that holds all of them, if files of one name hold one document.
-/
namespace WorkflowInference

open Entries Result Logged Path List

variable {es ins outs : Entries} {d : Doc} {c : Nat × Process} {steps : List Doc}

namespace Logged

variable {α β : Type} {x : Logged α} {f : α → Logged β} {a : α} {b : β}
  {new : List (String × String)}

def Writes (x : Logged α) (a : α) (new : List (String × String)) : Prop :=
  ∀ t, x.outcome t = (.ok a, { t with written := new ++ t.written })

variable {r : Result α}

theorem Writes.pure (a : α) : Writes (pure a) a [] := fun _ => rfl

theorem Writes.bind (hx : Writes x a new) (hf : Writes (f a) b more) :
    Writes (x >>= f) b (more ++ new) := by
  intro t
  rw [outcome_bind, hx t]
  rw [append_assoc]
  exact hf _

theorem Writes.given (h : r = .ok a) (hf : Writes (f a) b new) : Writes (liftM r >>= f) b new := by
  subst h
  exact hf

theorem Writes.forM {f : α → Logged Unit} {l : List α} {Q : α → List (String × String) → Prop}
    (h : ∀ a ∈ l, ∃ new, Writes (f a) () new ∧ Q a new) :
    ∃ new, Writes (l.forM f) () new ∧ (∀ e ∈ new, ∃ a ∈ l, ∃ own, Q a own ∧ e ∈ own) ∧
      ∀ a ∈ l, ∃ own, Q a own ∧ own ⊆ new ∧ own.length ≤ new.length := by
  induction l with
  | nil => exact ⟨[], .pure (), by simp, by simp⟩
  | cons a l ih =>
    obtain ⟨own, hown, hQ⟩ := h a mem_cons_self
    obtain ⟨new, hnew, hfrom, hall⟩ := ih fun b hb => h b (mem_cons_of_mem a hb)
    refine ⟨new ++ own, hown.bind hnew, fun e he => ?_, fun b hb => ?_⟩
    · rcases mem_append.mp he with he | he
      · obtain ⟨b, hb, rest⟩ := hfrom e he
        exact ⟨b, mem_cons_of_mem a hb, rest⟩
      · exact ⟨a, mem_cons_self, own, hQ, he⟩
    · rcases mem_cons.mp hb with rfl | hb
      · exact ⟨own, hQ, subset_append_right new own, by simp⟩
      · obtain ⟨own', hQ', hsub, hlen⟩ := hall b hb
        exact ⟨own', hQ', List.Subset.trans hsub (subset_append_left new own), by simp; omega⟩

theorem surely_mapIdxM {f : Nat → α → Logged β}
    (h : List.Forall₂ (fun a b => ∀ i, (f i a).Surely b) as bs) : (as.mapIdxM f).Surely bs := by
  have hgo : ∀ acc : Array β, (mapIdxM.go f as acc).Surely (acc.toList ++ bs) := by
    induction h with
    | nil =>
      intro acc
      rw [mapIdxM.go, append_nil]
      exact surely_pure _
    | cons hb _ ih =>
      intro acc
      rw [mapIdxM.go]
      refine (hb _).bind ?_
      simpa using ih (acc.push _)
  simpa [mapIdxM] using hgo #[]

end Logged

namespace Workflow

theorem Shelf.find_eq {shelf : Shelf} {space stem parent : String}
    {files : List (String × Result String)} {text : Result String}
    (hfiles : shelf.lookup space = some files) (h : files.lookup stem = some text) :
    shelf.find space stem parent = text := by
  cases files with
  | nil => cases h
  | cons file files =>
    rw [find, hfiles]
    dsimp only
    rw [h]

end Workflow

namespace Assembly

open Compile (stepsOf)

theorem artifactPath_below {dir d x : String} (hd : d = dir ∨ d = Path.below dir [])
    (hsuffix : suffix dir = "") (hx : Path.IsPart x) :
    artifactPath (.path d) x [".wic"] = .ok (Path.below dir [x]) := by
  have hplain : Path.plain d = Path.below dir [] := by
    rcases hd with rfl | rfl
    · rw [Path.plain, Path.below, append_nil]
    · rw [Path.plain, ← append_nil (parts _)]
      exact below_below (by simp) []
  have hname : suffix (Path.below dir []) = "" := by
    rw [← hsuffix, suffix, name, parts_below (by simp), append_nil, suffix, name]
  rw [artifactPath, hplain]
  simp only [hname]
  rw [join_eq hx.relative, parts_of_isPart hx, below_below (by simp)]
  rfl

namespace Scene

variable {s : Scene} {p q : Process} {m n : Nat} {names : List (String × String)} {doc : Doc}
  {dir : String}

inductive Within (s : Scene) : Process → Process → Prop
  | self (p : Process) : Within s p p
  | child {p q r : Process} {c : Nat} (hc : (c, q) ∈ s.childrenOf p) (h : Within s q r) :
      Within s p r

variable {new : List (String × String)}

theorem Within.trans (h : s.Within p q) (h' : s.Within q r) : s.Within p r := by
  induction h with
  | self p => exact h'
  | child hc _ ih => exact .child hc (ih h')

theorem Within.eq_of_isStep (h : s.Within p q) (hstep : p.isStep) : q = p := by
  cases h with
  | self => rfl
  | child hc _ =>
    cases hcontent : p.content with
    | step part => simp [childrenOf, Process.children, hcontent] at hc
    | workflow cs => simp [Process.isStep, hcontent] at hstep

theorem validateTo_mono (h : s.validateTo n p = .ok ()) : s.validateTo (n + 1) p = .ok () := by
  induction n generalizing p with
  | zero => cases h
  | succ n ih =>
    rw [validateTo]
    split
    · rfl
    · rename_i hstep
      obtain ⟨-, hall⟩ := validateTo_succ (Bool.eq_false_iff.mpr hstep) h
      rw [validateTo, if_neg hstep] at h
      obtain ⟨_, hshape, _, houts, h⟩ := of_bind₂ h
      rw [hshape, houts]
      exact forM_of_ok fun c hc => by rw [ih (hall c.1 c.2 hc)]

theorem validate_child {c : Nat} (hstep : p.isStep = false) (h : s.validate p = .ok ())
    (hc : (c, q) ∈ s.childrenOf p) : s.validate q = .ok () :=
  validateTo_mono ((validateTo_succ hstep h).2 c q hc)

theorem Rendered.of_mem (h : s.Rendered n names p ins outs steps) (hc : c ∈ s.childrenOf p)
    (hstep : c.2.isStep = false) : ∃ doc, s.documentTo n [] c.2 = .ok doc := by
  obtain ⟨k, hk⟩ := getElem?_of_mem hc
  have hlt : k < steps.length := h.length ▸ (List.getElem?_eq_some_iff.mp hk).1
  obtain ⟨c', hc', hrenders⟩ := h.step (getElem?_eq_getElem hlt)
  cases hk.symm.trans hc'
  obtain ⟨doc, -, hdoc⟩ := hrenders.subtree hstep
  exact ⟨doc, hdoc⟩

theorem documentTo_of_children (h : s.documentTo (n + 1) names p = .ok doc)
    (hall : ∀ c ∈ s.childrenOf p, c.2.isStep = false → ∀ d, s.documentTo n [] c.2 = .ok d →
      s.documentTo m [] c.2 = .ok d) : s.documentTo (m + 1) names p = .ok doc := by
  rw [documentTo] at h ⊢
  obtain ⟨ins, hins, outs, houts, steps, hsteps, h⟩ := of_bind₃ h
  have hmore : (s.childrenOf p).mapM (fun c => stepWithin (s.documentTo m []) c.2) = .ok steps := by
    refine mapM_of_forall₂
      (((forall₂_and_left _ _).mpr ⟨hall, mapM_eq_ok hsteps⟩).imp fun c step hc => ?_)
    obtain ⟨hdoc, hc⟩ := hc
    rw [stepWithin] at hc ⊢
    cases hcontent : c.2.content with
    | step part => rwa [hcontent] at hc
    | workflow cs =>
      rw [hcontent] at hc
      obtain ⟨sub, hsub, hc⟩ := of_bind hc
      rw [hdoc (by rw [Process.isStep, hcontent]) sub hsub]
      exact hc
  rw [hins, houts]
  change ((s.childrenOf p).mapM (fun c => stepWithin (s.documentTo m []) c.2) >>= _) = _
  rw [hmore]
  exact h

theorem documentTo_mono (h : s.documentTo n names p = .ok doc) (hle : n ≤ m) :
    s.documentTo m names p = .ok doc := by
  induction n generalizing m names p doc with
  | zero => cases h
  | succ n ih =>
    obtain ⟨m, rfl⟩ :=
      Nat.exists_eq_succ_of_ne_zero (Nat.ne_of_gt (Nat.lt_of_lt_of_le (Nat.succ_pos n) hle))
    exact documentTo_of_children h fun c _ _ d hd => ih hd (Nat.le_of_succ_le_succ hle)

/-- The files of a workflow can be told apart and hold its documents. -/
structure Filed (s : Scene) (p : Process) : Prop where
  slash : ∀ q, s.Within p q → q.isStep = false → '/' ∉ q.name.toList
  named : ∀ q, s.Within p q → q.isStep → q.name ≠ "" ∧ Workflow.isSubKey q.name = false
  same : ∀ q r, s.Within p q → s.Within p r → q.isStep = false → r.isStep = false →
    stem (fileName q) = stem (fileName r) → s.documentApart q = s.documentApart r
  yaml : ∀ q d, s.Within p q → q.isStep = false → s.documentApart q = .ok d →
    ∃ text, Yaml.write d = .ok text ∧ Yaml.read text = .ok d

theorem Filed.isPart (h : s.Filed p) (hq : s.Within p q) (hstep : q.isStep = false) :
    Path.IsPart (fileName q) :=
  isPart_append_ext (h.slash q hq hstep) (by decide) (by decide)

theorem Filed.child (h : s.Filed p) (hc : c ∈ s.childrenOf p) : s.Filed c.2 where
  slash q hq := h.slash q (.child hc hq)
  named q hq := h.named q (.child hc hq)
  same q r hq hr := h.same q r (.child hc hq) (.child hc hr)
  yaml q d hq := h.yaml q d (.child hc hq)

structure Leaves (s : Scene) (dir : String) (p : Process) (doc : Doc)
    (new : List (String × String)) : Prop where
  made : ∀ e ∈ new, ∃ q d, s.Within p q ∧ q.isStep = false ∧ e.1 = Path.below dir [fileName q] ∧
    s.documentApart q = .ok d ∧ Yaml.write d = .ok e.2
  all : ∀ q, s.Within p q → q.isStep = false → ∃ text, (Path.below dir [fileName q], text) ∈ new
  deep : s.documentTo new.length [] p = .ok doc

theorem writeApart_leaves (hstep : p.isStep = false) (hvalid : s.validate p = .ok ())
    (hdoc : s.documentTo n [] p = .ok doc) (hfiled : s.Filed p) (hsuffix : suffix dir = "")
    {d : String} (hd : d = dir ∨ d = Path.below dir []) :
    ∃ raw text new, s.documentApart p = .ok raw ∧ Yaml.read text = .ok raw ∧
      (s.writeApart n p (.path d)).Writes (Path.below dir [fileName p])
      ((Path.below dir [fileName p], text) :: new) ∧
      s.Leaves dir p doc ((Path.below dir [fileName p], text) :: new) := by
  induction n generalizing p doc d with
  | zero => cases hdoc
  | succ n ih =>
    obtain ⟨ins, outs, steps, rfl, hrender⟩ := documentTo_succ hdoc
    have hself := hfiled.isPart (.self p) hstep
    have hapart : s.documentApart p =
        .ok (documentOf ins outs ((s.childrenOf p).map fun c => stepApart c.2)) := by
      rw [documentApart, hrender.inputs, hrender.outputs]
      rfl
    obtain ⟨text, htext, hread⟩ := hfiled.yaml p _ (.self p) hstep hapart
    have hparent : parent (Path.below dir [fileName p]) = Path.below dir [] :=
      (parent_below (by simp) hself : parent (Path.below dir ([] ++ [fileName p])) = _)
    obtain ⟨new, hnew, hfrom, hall⟩ :=
      Logged.Writes.forM (l := s.childrenOf p) (f := fun c => if c.2.isStep then pure () else do
        let _ ← writeApart s n c.2 (.path (parent (Path.below dir [fileName p]))))
      (Q := fun c new => c.2.isStep ∧ new = [] ∨ ∃ doc, s.documentTo n [] c.2 = .ok doc ∧
        s.Leaves dir c.2 doc new) fun c hc => by
      cases hchild : c.2.isStep with
      | true => exact ⟨[], .pure (), .inl ⟨rfl, rfl⟩⟩
      | false =>
        obtain ⟨doc, hdoc⟩ := hrender.of_mem hc hchild
        obtain ⟨-, text, new, -, -, hwrites, hleaves⟩ :=
          ih hchild (validate_child hstep hvalid hc) hdoc (hfiled.child hc) (.inr hparent)
        exact ⟨_, hwrites.bind (.pure ()), .inr ⟨doc, hdoc, hleaves⟩⟩
    refine ⟨_, text, new, hapart, hread, ?_, ?_, ?_, ?_⟩
    · rw [writeApart]
      refine .given hvalid (.given (artifactPath_below hd hsuffix hself) (.given hapart ?_))
      change Logged.Writes _ _ ([(Path.below dir [fileName p], text)] ++ new)
      refine hnew.bind ?_
      exact .given htext fun _ => rfl
    · rintro e he
      rcases mem_cons.mp he with rfl | he
      · exact ⟨p, _, .self p, hstep, rfl, hapart, htext⟩
      · obtain ⟨c, hc, own, hown, he⟩ := hfrom e he
        obtain ⟨-, rfl⟩ | ⟨doc, -, hleaves⟩ := hown
        · cases he
        · obtain ⟨q, d, hq, hrest⟩ := hleaves.made e he
          exact ⟨q, d, .child hc hq, hrest⟩
    · intro q hq hqstep
      cases hq with
      | self => exact ⟨text, mem_cons_self⟩
      | @child _ r _ c hc h =>
        obtain ⟨own, hown, hsub, -⟩ := hall (c, r) hc
        obtain ⟨hchild, -⟩ | ⟨doc, -, hleaves⟩ := hown
        · rw [h.eq_of_isStep hchild] at hqstep
          rw [hqstep] at hchild
          cases hchild
        · obtain ⟨text', htext'⟩ := hleaves.all q h hqstep
          exact ⟨text', mem_cons_of_mem _ (hsub htext')⟩
    · refine documentTo_of_children hdoc fun c hc hchild d hd => ?_
      obtain ⟨own, hown, -, hlen⟩ := hall c hc
      obtain ⟨hstep', -⟩ | ⟨doc, hdoc', hleaves⟩ := hown
      · rw [hchild] at hstep'
        cases hstep'
      · cases hd.symm.trans hdoc'
        exact documentTo_mono hleaves.deep hlen

def shelfOf (files : List (String × String)) : Workflow.Shelf :=
  [(globalSpace, files.map fun e => (stem e.1, .ok e.2))]

theorem stem_below (hx : Path.IsPart x) : stem (Path.below dir [x]) = stem x := by
  rw [stem, name, parts_below (by simpa using hx), getLastD_concat, stem, name,
    parts_of_isPart hx]
  rfl

theorem Leaves.find (h : s.Leaves dir p doc new) (hfiled : s.Filed p) (hq : s.Within p q)
    (hstep : q.isStep = false) (parent : String) :
    ∃ d text, s.documentApart q = .ok d ∧ Yaml.read text = .ok d ∧
      (shelfOf new).find globalSpace (stem (fileName q)) parent = .ok text := by
  have hpart : ∀ r, s.Within p r → r.isStep = false →
      stem (Path.below dir [fileName r]) = stem (fileName r) :=
    fun r hr hstep => stem_below (hfiled.isPart hr hstep)
  obtain ⟨text, htext⟩ := h.all q hq hstep
  cases hlook : (new.map fun e => (stem e.1, (.ok e.2 : Result String))).lookup
    (stem (fileName q)) with
  | none =>
    have hne := lookup_eq_none_iff.mp hlook _ (mem_map_of_mem htext)
    rw [hpart q hq hstep] at hne
    simp at hne
  | some found =>
    obtain ⟨e, he, heq⟩ := mem_map.mp (Keyed.mem_of_lookup hlook)
    obtain ⟨hstem, rfl⟩ := Prod.mk.inj heq
    obtain ⟨r, d, hr, hrstep, hname, hd, hwrite⟩ := h.made e he
    rw [hname, hpart r hr hrstep] at hstem
    obtain ⟨text, hwrite', hread⟩ := hfiled.yaml r d hr hrstep hd
    cases hwrite.symm.trans hwrite'
    refine ⟨d, e.2, hd ▸ hfiled.same q r hq hr hstep hrstep hstem.symm, hread, ?_⟩
    exact Workflow.Shelf.find_eq (by simp [shelfOf]) hlook

theorem isMap_of_ofPairs (h : ∀ e ∈ es, (∃ k, e.1 = .str k) ∧ e.2.isMap) :
    ∀ e ∈ ofPairs es, e.2.isMap := by
  intro e he
  rcases mem_update_of_str (fun f hf => (h f hf).1) he with he | he
  · cases he
  · exact (h e he).2

theorem canonical_documentOf (hins : ∀ e ∈ ins, e.2.isMap) (houts : ∀ e ∈ outs, e.2.isMap)
    (hsteps : ∀ d ∈ steps, ∃ id, Workflow.requireId "step" d = .ok id) :
    Workflow.canonical (documentOf ins outs steps) = .ok (documentOf ins outs steps) := by
  refine Workflow.Canonical.eq_ok ⟨fun v hv => ⟨ins, ?_, hins⟩, fun v hv =>
    ⟨outs, ?_, fun e he => ?_⟩, fun v hv => ?_⟩
  · cases ins <;> cases outs <;> cases hv <;> rfl
  · cases ins <;> cases outs <;> cases hv <;> rfl
  · rw [houts e he, Bool.true_or]
  · obtain rfl : v = .list steps := (Option.some.inj hv).symm
    refine ⟨rfl, ?_⟩
    rintro _ ⟨⟩
    exact hsteps

theorem documentOf_wic (ins outs : Entries) (steps : List Doc) :
    (documentOf ins outs steps).fieldD "wic" (.map []) = .ok (.map []) := by
  cases ins <;> cases outs <;> rfl

theorem setSteps_documentOf (ins outs : Entries) (steps steps' : List Doc) :
    Workflow.Tree.setSteps (documentOf ins outs steps) steps' = .ok (documentOf ins outs steps') :=
  rfl

theorem requireId_fileStep (p : Process) :
    Workflow.requireId "step" (fileStep p) = .ok (fileName p) := by
  have hne : fileName p ≠ "" := by
    intro h
    have hlen := congrArg (length ∘ String.toList) h
    simp [fileName] at hlen
  exact if_neg hne

theorem subtreeStep_eq (p : Process) (doc : Doc) :
    subtreeStep p doc = Doc.obj [("id", .str (fileName p)), ("subtree", doc),
      ("parentargs", .map (remove ((fileStep p).map?.getD []) "id"))] := by
  rw [subtreeStep, fileStep]
  cases ofPairs p.boundInputs <;> rfl

theorem requireId_stepApart (hfiled : s.Filed p) (hq : s.Within p q) :
    Workflow.requireId "step" (stepApart q) = .ok q.key := by
  rw [stepApart, Process.key, Process.isStep]
  cases hcontent : q.content with
  | workflow cs => exact requireId_fileStep q
  | step part => exact if_neg (hfiled.named q hq (by rw [Process.isStep, hcontent])).1

theorem documentApart_canonical (hfiled : s.Filed p) (hq : s.Within p q)
    (h : s.documentApart q = .ok d) : Workflow.canonical d = .ok d := by
  obtain ⟨ins, hins, outs, houts, h⟩ := of_bind₂ h
  cases h
  refine canonical_documentOf ?_ ?_ fun d hd => ?_
  · obtain ⟨es, hes, hins⟩ := of_bind hins
    cases hins
    refine isMap_of_ofPairs fun e he => ?_
    obtain ⟨x, -, hx⟩ := mem_of_mapM hes he
    dsimp only at hx
    split at hx
    · cases hx
    · cases hx
      exact ⟨⟨_, rfl⟩, rfl⟩
  · obtain ⟨es, hes, houts⟩ := of_bind houts
    cases houts
    refine isMap_of_ofPairs fun e he => ?_
    obtain ⟨x, -, hx⟩ := mem_of_mapM hes he
    obtain ⟨v, hv, hx⟩ := of_bind hx
    cases hx
    refine ⟨⟨_, rfl⟩, ?_⟩
    rw [Output.declaration] at hv
    split at hv
    · cases hv
    · split at hv
      · cases hv
      · cases hv
        rfl
  · obtain ⟨c, hc, rfl⟩ := mem_map.mp hd
    exact ⟨_, requireId_stepApart hfiled (hq.trans (.child hc (.self _)))⟩

theorem documentApart_steps (hfiled : s.Filed p) (hq : s.Within p q)
    (h : s.documentApart q = .ok d) :
    Workflow.Tree.steps d = .ok ((s.childrenOf q).map fun c => (stepApart c.2, c.2.key)) := by
  obtain ⟨ins, hins, outs, houts, h⟩ := of_bind₂ h
  cases h
  refine Workflow.steps_iff.mpr ⟨?_, fun s hs => ?_⟩
  · rw [map_map]
    rfl
  · obtain ⟨c, hc, rfl⟩ := mem_map.mp hs
    exact Compile.stepKey_eq
      (Compile.requireId_eq_ok (requireId_stepApart hfiled (hq.trans (.child hc (.self _))))).1

theorem readIn_spec (h : s.Leaves dir p doc new) (hfiled : s.Filed p) (hq : s.Within p q)
    (hstep : q.isStep = false) (hapart : s.documentApart q = .ok d)
    (hdoc : s.documentTo n [] q = .ok sub) (hle : n ≤ m) (id : StepId) :
    (Workflow.readIn (shelfOf new) none m ⟨id, d⟩).Surely ⟨id, sub⟩ := by
  induction n generalizing m q d sub id with
  | zero => cases hdoc
  | succ n ih =>
    obtain ⟨m, rfl⟩ :=
      Nat.exists_eq_succ_of_ne_zero (Nat.ne_of_gt (Nat.lt_of_lt_of_le (Nat.succ_pos n) hle))
    have hcanon := documentApart_canonical hfiled hq hapart
    have hsteps := documentApart_steps hfiled hq hapart
    rw [documentTo] at hdoc
    obtain ⟨ins, hins, outs, houts, steps, hwithin, hdoc⟩ := of_bind₃ hdoc
    cases hdoc
    rw [documentApart, hins, houts] at hapart
    cases hapart
    rw [Workflow.readIn]
    refine (surely_lift hcanon).bind ?_
    dsimp only
    refine (surely_lift (documentOf_wic ins outs _)).bind ?_
    refine (surely_lift (a := none) rfl).bind ?_
    dsimp only
    refine (surely_lift (a := Doc.list ((s.childrenOf q).map fun c => stepApart c.2)) rfl).bind ?_
    refine (surely_lift (a := Doc.map []) rfl).bind ?_
    refine (surely_lift hsteps).bind ?_
    refine (surely_mapIdxM ?_).bind
      ((surely_lift (setSteps_documentOf ins outs _ steps)).bind (surely_pure _))
    have hchildren : ∀ c ∈ s.childrenOf q, s.Within p c.2 :=
      fun c hc => hq.trans (.child hc (.self _))
    refine forall₂_map_left_iff.mpr
      (((forall₂_and_left _ _).mpr ⟨hchildren, mapM_eq_ok hwithin⟩).imp ?_)
    rintro c step ⟨hc, hwithin⟩ i
    rw [stepWithin] at hwithin
    rw [stepApart]
    cases hcontent : c.2.content with
    | step part =>
      rw [hcontent] at hwithin
      cases hwithin
      have hchild : c.2.isStep := by rw [Process.isStep, hcontent]
      rw [Process.key, if_pos hchild, if_neg (by simp [(hfiled.named c.2 hc hchild).2])]
      exact surely_pure _
    | workflow cs =>
      rw [hcontent] at hwithin
      have hchild : c.2.isStep = false := by rw [Process.isStep, hcontent]
      have hkey : c.2.key = fileName c.2 := if_neg (by simp [hchild])
      obtain ⟨sub, hsub, hwithin⟩ := of_bind hwithin
      cases hwithin
      obtain ⟨d, text, hd, hread, hfind⟩ := h.find hfiled hc hchild id.stem
      rw [hkey, if_pos (isSubKey_fileName c.2), subtreeStep_eq]
      refine (surely_lift (a := Doc.map []) rfl).bind ?_
      refine (surely_lift (a := Doc.str globalSpace) rfl).bind ?_
      refine (surely_lift hfind).bind ((surely_lift hread).bind ?_)
      refine (ih hc hchild hd hsub (Nat.le_of_succ_le_succ hle) _).bind ?_
      refine (surely_lift (requireId_fileStep c.2)).bind ((surely_lift rfl).bind ?_)
      exact surely_pure _

theorem Within.mem (h : s.Within p q) (hp : p ∈ s.processes) : q ∈ s.processes := by
  induction h with
  | self p => exact hp
  | child hc _ ih => exact ih (mem_of_getElem? (mem_childrenOf.mp hc).2)

theorem Filed.of_nodup (hp : p ∈ s.processes)
    (hslash : ∀ q ∈ s.processes, q.isStep = false → '/' ∉ q.name.toList)
    (hnamed : ∀ q ∈ s.processes, q.isStep → q.name ≠ "" ∧ Workflow.isSubKey q.name = false)
    (hnodup : ((s.processes.filter (!·.isStep)).map fun q => stem (fileName q)).Nodup)
    (hyaml : ∀ q ∈ s.processes, q.isStep = false → ∀ d, s.documentApart q = .ok d →
      ∃ text, Yaml.write d = .ok text ∧ Yaml.read text = .ok d) : s.Filed p where
  slash q hq := hslash q (hq.mem hp)
  named q hq := hnamed q (hq.mem hp)
  same q r hq hr hstep hstep' hstem :=
    congrArg s.documentApart
      (inj_on_of_nodup_map hnodup (by simp [hq.mem hp, hstep]) (by simp [hr.mem hp, hstep']) hstem)
  yaml q d hq hstep := hyaml q (hq.mem hp) hstep d

end Scene

namespace Sample

mutual

def same : Doc → Doc → Bool
  | .str a, .str b => a = b
  | .list xs, .list ys => sameAll xs ys
  | .map es, .map fs => sameEntries es fs
  | _, _ => false

def sameAll : List Doc → List Doc → Bool
  | [], [] => true
  | x :: xs, y :: ys => same x y && sameAll xs ys
  | _, _ => false

def sameEntries : List (Doc × Doc) → List (Doc × Doc) → Bool
  | [], [] => true
  | (k, v) :: es, (l, w) :: fs => same k l && same v w && sameEntries es fs
  | _, _ => false

end

mutual

theorem eq_of_same {a b : Doc} (h : same a b) : a = b := by
  cases a <;> cases b <;> simp only [same, decide_eq_true_eq, Bool.false_eq_true] at h
  · rw [h]
  · rw [eq_of_sameAll h]
  · rw [eq_of_sameEntries h]

theorem eq_of_sameAll (h : sameAll xs ys) : xs = ys := by
  cases xs <;> cases ys <;> simp only [sameAll, Bool.and_eq_true, Bool.false_eq_true] at h
  · rfl
  · rw [eq_of_same h.1, eq_of_sameAll h.2]

theorem eq_of_sameEntries {es fs : List (Doc × Doc)} (h : sameEntries es fs) : es = fs := by
  rcases es with _ | ⟨⟨k, v⟩, es⟩ <;> rcases fs with _ | ⟨⟨l, w⟩, fs⟩ <;>
    simp only [sameEntries, Bool.and_eq_true, Bool.false_eq_true] at h
  · rfl
  · rw [eq_of_same h.1.1, eq_of_same h.1.2, eq_of_sameEntries h.2]

end

def survives (d : Doc) : Bool :=
  ((Yaml.write d).toOption.bind fun text => (Yaml.read text).toOption).any (same d)

theorem yaml_of_survives {r : Result Doc} (h : r.toOption.all survives) (hd : r = .ok d) :
    ∃ text, Yaml.write d = .ok text ∧ Yaml.read text = .ok d := by
  subst hd
  obtain ⟨d', hd', hsame⟩ := (Option.any_eq_true _ _).mp h
  obtain ⟨text, htext, hread⟩ := Option.bind_eq_some_iff.mp hd'
  obtain rfl := eq_of_same hsame
  exact ⟨text, toOption_eq_some.mp htext, toOption_eq_some.mp hread⟩

end Sample

/-- A workflow that is written into files is read back from them as its document. -/
theorem Scene.files_hold_document (s : Scene) (p : Process) (doc : Doc) (dir : String)
    (hstep : p.isStep = false) (hvalid : s.validate p = .ok ()) (hdoc : s.document p = .ok doc)
    (hfiled : s.Filed p) (hsuffix : Path.suffix dir = "") :
    ∃ file t text raw, (s.writeWic p (.str dir) false).outcome {} = (.ok file, t) ∧
      t.written.lookup file = some text ∧
      Yaml.read text = .ok raw ∧
      ∀ id, (Workflow.read (shelfOf t.written) none ⟨id, raw⟩).Surely ⟨id, doc⟩ := by
  obtain ⟨raw, text, new, hraw, hread, hwrites, hleaves⟩ :=
    writeApart_leaves hstep hvalid hdoc hfiled hsuffix (.inl rfl)
  refine ⟨_, _, text, raw, hwrites {}, by simp, hread, fun id => ?_⟩
  rw [List.append_nil]
  refine readIn_spec hleaves hfiled (.self p) hstep hraw hleaves.deep ?_ id
  simp [shelfOf, Workflow.Shelf.size]
  omega

open Sample in
theorem Scene.files_hold_document_linked :
    ∃ file t text raw,
      ((scene linked).writeWic (processAt (scene linked) 3) (.str "out") false).outcome {} =
        (.ok file, t) ∧
      t.written.lookup file = some text ∧ Yaml.read text = .ok raw ∧
      ∀ id, (Workflow.read (Scene.shelfOf t.written) none ⟨id, raw⟩).Surely
        ⟨id, documentAt (scene linked) 3⟩ := by
  have hall : (processAt (scene linked) 3).isStep = false ∧
      ((scene linked).validate (processAt (scene linked) 3)).toOption.isSome = true ∧
      ((scene linked).document (processAt (scene linked) 3)).toOption.isSome = true ∧
      ((scene linked).process? 3).isSome = true ∧
      (∀ q ∈ (scene linked).processes, q.isStep = false → '/' ∉ q.name.toList) ∧
      (∀ q ∈ (scene linked).processes, q.isStep = true → q.name ≠ "" ∧
      Workflow.isSubKey q.name = false) ∧
      (((scene linked).processes.filter (!·.isStep)).map fun q =>
      Path.stem (Scene.fileName q)).Nodup ∧
      (∀ q ∈ (scene linked).processes, q.isStep = false →
      ((scene linked).documentApart q).toOption.all survives = true) := by
    decide +kernel
  obtain ⟨hstep, hvalid, hdoc, hmem, hslash, hnamed, hnodup, hyaml⟩ := hall
  exact Scene.files_hold_document (scene linked) _ _ "out" hstep (validate_processAt hvalid)
    (document_documentAt hdoc) (.of_nodup (List.mem_of_getElem? (process?_processAt hmem)) hslash
    hnamed hnodup fun q hq hqstep _ hd =>
      yaml_of_survives (hyaml q hq hqstep) hd) (by decide +kernel)

end Assembly

end WorkflowInference
