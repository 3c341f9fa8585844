import WorkflowInference.Proofs.Assembly.Command
import WorkflowInference.Proofs.Compile.Enclosed

/-!
Workflows as documents, read back. The document of a workflow has one step for each child, and the
document of a workflow inside is found in its step; so a path of places leads from a process to a
process below it and from its document to the document of that process.
-/
namespace WorkflowInference

open Result List Option

variable {α : Type}

theorem Result.forM_eq_ok {f : α → Result Unit} {as : List α} (h : as.forM f = .ok ()) :
    ∀ a ∈ as, f a = .ok () := by
  induction as with
  | nil => exact fun a ha => by cases ha
  | cons a as ih =>
    obtain ⟨_, ha, has⟩ := of_bind h
    intro b hb
    rcases mem_cons.mp hb with rfl | hb
    · exact ha
    · exact ih has b hb

theorem Result.forM_of_ok {f : α → Result Unit} {as : List α} (h : ∀ a ∈ as, f a = .ok ()) :
    as.forM f = .ok () := by
  induction as with
  | nil => rfl
  | cons a as ih =>
    change (f a >>= fun _ => as.forM f) = _
    rw [h a mem_cons_self]
    exact ih fun b hb => h b (mem_cons_of_mem a hb)

theorem getElem?_filterMap_of_isSome {β : Type} {f : α → Option β} {as : List α}
    (h : ∀ a ∈ as, (f a).isSome) (k : Nat) : (as.filterMap f)[k]? = as[k]?.bind f := by
  induction as generalizing k with
  | nil => rfl
  | cons a as ih =>
    obtain ⟨b, hb⟩ := isSome_iff_exists.mp (h a mem_cons_self)
    rw [filterMap_cons_some hb]
    cases k with
    | zero => simp [hb]
    | succ k => simpa using ih (fun c hc => h c (mem_cons_of_mem _ hc)) k

namespace Assembly

open Compile (under? stepsOf)

def renderedAt (d : Doc) : List Nat → Option Doc
  | [] => some d
  | k :: ks => ((stepsOf d)[k]?).bind fun step => (under? step "subtree").bind (renderedAt · ks)

def renderedInputs (step : Doc) : Entries :=
  (((under? step "in").or ((under? step "parentargs").bind (under? · "in"))).bind Doc.map?).getD []

def renderedOutputs (step : Doc) : List Doc := ((under? step "out").bind Doc.list?).getD []

namespace Scene

variable {s : Scene} {i j k n : Nat} {p q w : Process} {H : String → OutputRef → Prop}
  {names : List (String × String)} {doc : Doc}

def at? (s : Scene) : Nat → List Nat → Option Nat
  | i, [] => some i
  | i, k :: ks => (s.process? i).bind fun p => (p.children[k]?).bind fun c => s.at? c ks

variable {ks : List Nat} {c : Nat} {ins outs : Entries} {steps : List Doc} {d : Doc}

theorem at?_append : s.at? i (ks ++ ls) = (s.at? i ks).bind (s.at? · ls) := by
  induction ks generalizing i with
  | nil => rfl
  | cons k ks ih => simp only [cons_append, at?, ih, bind_assoc]

theorem mem_childrenOf : (c, q) ∈ s.childrenOf p ↔ c ∈ p.children ∧ s.process? c = some q := by
  simp only [childrenOf, mem_filterMap, map_eq_some_iff]
  constructor
  · rintro ⟨c', hc', q', hq', heq⟩
    cases heq
    exact ⟨hc', hq'⟩
  · rintro ⟨hc, hq⟩
    exact ⟨c, hc, q, hq, rfl⟩

theorem childrenOf_getElem? (hs : s.Sound H) (hp : s.process? i = some p) :
    (s.childrenOf p)[k]? = (p.children[k]?).bind fun c => (s.process? c).map fun q => (c, q) := by
  refine getElem?_filterMap_of_isSome (fun c hc => ?_) k
  have hlt : c < s.processes.length :=
    Nat.lt_trans ((hs i p hp).children c hc) (List.getElem?_eq_some_iff.mp hp).1
  rw [process?, List.getElem?_eq_getElem hlt]
  rfl

theorem validateTo_succ (hstep : p.isStep = false) (h : s.validateTo (n + 1) p = .ok ()) :
    s.checkShape p = .ok () ∧ ∀ c q, (c, q) ∈ s.childrenOf p → s.validateTo n q = .ok () := by
  rw [validateTo, if_neg (by simp [hstep])] at h
  obtain ⟨_, hshape, _, -, h⟩ := of_bind₂ h
  refine ⟨hshape, fun c q hc => ?_⟩
  have hchild := forM_eq_ok h (c, q) hc
  dsimp only at hchild
  split at hchild
  · assumption
  · cases hchild

inductive Renders (s : Scene) (n : Nat) (c : Process) : Doc → Prop
  | step {part : StepPart} (h : c.content = .step part) : Renders s n c (.map (c.stepEntries part))
  | workflow {cs : List Nat} {doc : Doc} (h : c.content = .workflow cs)
      (hdoc : s.documentTo n [] c = .ok doc) : Renders s n c (subtreeStep c doc)

structure Rendered (s : Scene) (n : Nat) (names : List (String × String)) (p : Process)
    (ins outs : Entries) (steps : List Doc) : Prop where
  inputs : inputDeclarations p = .ok ins
  outputs : outputDeclarations p names = .ok outs
  length : steps.length = (s.childrenOf p).length
  step : ∀ {k : Nat} {d : Doc}, steps[k]? = some d → ∃ c, (s.childrenOf p)[k]? = some c ∧
    s.Renders n c.2 d

theorem documentTo_succ (h : s.documentTo (n + 1) names p = .ok doc) :
    ∃ ins outs steps, doc = documentOf ins outs steps ∧ s.Rendered n names p ins outs steps := by
  rw [documentTo] at h
  obtain ⟨ins, hins, outs, houts, steps, hsteps, h⟩ := of_bind₃ h
  cases h
  refine ⟨ins, outs, steps, rfl, hins, houts, length_mapM hsteps, fun hd => ?_⟩
  obtain ⟨c, hc, hcd⟩ := getElem?_mapM hsteps hd
  refine ⟨c, hc, ?_⟩
  rw [stepWithin] at hcd
  split at hcd
  · cases hcd
    exact .step ‹_›
  · obtain ⟨sub, hsub, hcd⟩ := of_bind hcd
    cases hcd
    exact .workflow ‹_› hsub

@[simp] theorem stepsOf_documentOf (ins outs : Entries) (steps : List Doc) :
    stepsOf (documentOf ins outs steps) = steps := rfl

theorem Rendered.child (h : s.Rendered n names p ins outs steps)
    (hs : s.Sound H) (hp : s.process? i = some p) (hd : steps[k]? = some d) :
    ∃ c q, p.children[k]? = some c ∧ s.process? c = some q ∧ s.Renders n q d := by
  obtain ⟨⟨c, q⟩, hc, hcd⟩ := h.step hd
  rw [childrenOf_getElem? hs hp] at hc
  obtain ⟨c', hc', hc⟩ := bind_eq_some_iff.mp hc
  obtain ⟨q', hq', heq⟩ := map_eq_some_iff.mp hc
  cases heq
  exact ⟨c, q, hc', hq', hcd⟩

theorem Rendered.of_child (h : s.Rendered n names p ins outs steps)
    (hs : s.Sound H) (hp : s.process? i = some p) (hc : p.children[k]? = some c) :
    ∃ q d, s.process? c = some q ∧ steps[k]? = some d ∧ s.Renders n q d := by
  have hlt : c < s.processes.length :=
    Nat.lt_trans ((hs i p hp).children c (mem_of_getElem? hc)) (List.getElem?_eq_some_iff.mp hp).1
  have hchild : (s.childrenOf p)[k]? = some (c, s.processes[c]) := by
    rw [childrenOf_getElem? hs hp, hc, bind_some, process?, List.getElem?_eq_getElem hlt]
    rfl
  have hk : k < steps.length := h.length ▸ (List.getElem?_eq_some_iff.mp hchild).1
  have hd := List.getElem?_eq_getElem hk
  obtain ⟨c', q, hc', hq, hcd⟩ := h.child hs hp hd
  cases hc.symm.trans hc'
  exact ⟨q, _, hq, hd, hcd⟩

theorem isStep_of_child (hc : p.children[k]? = some c) : p.isStep = false := by
  cases hcontent : p.content with
  | step part => simp [Process.children, hcontent] at hc
  | workflow cs => simp [Process.isStep, hcontent]

theorem Renders.subtree {c : Process} (h : s.Renders n c d) (hstep : c.isStep = false) :
    ∃ sub, under? d "subtree" = some sub ∧ s.documentTo n [] c = .ok sub := by
  cases h with
  | step h => simp [Process.isStep, h] at hstep
  | workflow h hdoc => exact ⟨_, rfl, hdoc⟩

theorem at_path (hs : s.Sound H) (hp : s.process? i = some p) (hvalid : s.validateTo n p = .ok ())
    (hdoc : s.documentTo m names p = .ok doc) (hj : s.at? i ks = some j)
    (hw : s.process? j = some w) (hstep : w.isStep = false) :
    ∃ n' m' names' d, s.validateTo n' w = .ok () ∧ s.documentTo m' names' w = .ok d ∧
      renderedAt doc ks = some d := by
  induction ks generalizing i p n m names doc with
  | nil =>
    cases hj
    cases hp.symm.trans hw
    exact ⟨n, m, names, doc, hvalid, hdoc, rfl⟩
  | cons k ks ih =>
    rw [at?, hp, bind_some] at hj
    obtain ⟨c, hc, hj⟩ := bind_eq_some_iff.mp hj
    obtain - | n := n
    · cases hvalid
    obtain - | m := m
    · cases hdoc
    obtain ⟨ins, outs, steps, rfl, hrender⟩ := documentTo_succ hdoc
    obtain ⟨q, d, hq, hd, hqd⟩ := hrender.of_child hs hp hc
    have hqstep : q.isStep = false := by
      cases ks with
      | nil =>
        cases hj
        cases hq.symm.trans hw
        exact hstep
      | cons l ls =>
        rw [at?, hq, bind_some] at hj
        obtain ⟨c', hc', -⟩ := bind_eq_some_iff.mp hj
        exact isStep_of_child hc'
    have hvalidq := (validateTo_succ (isStep_of_child hc) hvalid).2 c q
      (mem_childrenOf.mpr ⟨mem_of_getElem? hc, hq⟩)
    obtain ⟨sub, hsub, hdocq⟩ := hqd.subtree hqstep
    obtain ⟨n', m', names', d', hvalid', hdoc', hat⟩ := ih hq hvalidq hdocq hj
    refine ⟨n', m', names', d', hvalid', hdoc', ?_⟩
    rw [renderedAt, stepsOf_documentOf, hd, bind_some, hsub, bind_some, hat]

end Scene

end Assembly

end WorkflowInference
