import WorkflowInference.Proofs.Compile.Written

/-!
Inputs that are given beside a workflow. Each is taken as it is, but for a relative location, which
is seen from the directory above; then they override the job inputs of every part of the workflow.
-/
namespace WorkflowInference.Compile

open Result Logged PartTree

/-- An input that can be taken: a map, with a text if it has a location, or a text or some items
without one. -/
def Admitted : Doc → Prop
  | .map es => ∀ v, Entries.get? es "location" = some v → ∃ s, v = .str s
  | .str s => Text.contains s "location" = false
  | .list xs | .tuple xs | .set xs => .str "location" ∉ xs
  | _ => False

def fromAbove (d : Doc) : Doc :=
  match d, under? d "location" with
  | .map es, some (.str s) =>
    if Path.isAbsolute s then d else .map (Entries.put es "location" (.str ("../" ++ s)))
  | _, _ => d

theorem outerInput_eq_ok : outerInput e = .ok r ↔ Admitted e.2 ∧ (e.1, fromAbove e.2) = r := by
  obtain ⟨k, d⟩ := e
  cases d with
  | map es =>
    cases hget : Entries.get? es "location" with
    | none =>
      simp [outerInput, Admitted, fromAbove, Doc.holds, Entries.has, hget, bind, Except.bind, pure,
        Except.pure]
    | some v =>
      cases v with
      | str s =>
        cases habs : Path.isAbsolute s <;> simp [outerInput, Admitted, fromAbove, Doc.holds,
          Doc.field, Doc.entries, Entries.has, hget,
          habs, bind, Except.bind, pure, Except.pure]
      | _ =>
        simp [outerInput, Admitted, Doc.holds, Doc.field, Entries.has, hget, bind, Except.bind,
          throw, throwThe, MonadExceptOf.throw]
  | str s =>
    cases hin : Text.contains s "location" <;>
      simp [outerInput, Admitted, fromAbove, Doc.holds, Doc.field, hin, bind, Except.bind, pure,
        Except.pure]
  | list xs | tuple xs | set xs =>
    have hmem : xs.any (· == .str "location") ↔ .str "location" ∈ xs := by simp
    cases hin : xs.any (· == .str "location") <;> rw [hin] at hmem <;>
      simp [outerInput, Admitted, fromAbove, Doc.holds, Doc.field, hin, ← hmem, bind, Except.bind,
        pure, Except.pure]
  | _ => simp [outerInput, Admitted, Doc.holds, bind, Except.bind]

theorem mapM_outerInput {es more : Entries} :
    es.mapM outerInput = .ok more ↔ (∀ e ∈ es, Admitted e.2) ∧
      (es.map fun e => (e.1, fromAbove e.2)) = more := by
  induction es generalizing more with
  | nil => simp [pure, Except.pure]
  | cons e es ih =>
    rw [List.mapM_cons, bind_eq_ok, List.forall_mem_cons]
    constructor
    · rintro ⟨r, hr, h⟩
      obtain ⟨rs, hrs, h⟩ := of_bind h
      cases h
      obtain ⟨he, rfl⟩ := outerInput_eq_ok.mp hr
      obtain ⟨hes, rfl⟩ := ih.mp hrs
      exact ⟨⟨he, hes⟩, rfl⟩
    · rintro ⟨⟨he, hes⟩, rfl⟩
      exact ⟨_, outerInput_eq_ok.mpr ⟨he, rfl⟩, bind_eq_ok.mpr ⟨_, ih.mpr ⟨hes, rfl⟩, rfl⟩⟩

namespace PartTree

def inputsFile (nested : Bool) (dir : String) : PartTree → List Nat → String
  | q, [] => fileOf nested dir q.part "_inputs.yml"
  | q, i :: is => (q.subs[i]?).elim "" fun s => inputsFile nested (s.home nested dir) s is

def Writable (nested : Bool) (more : Entries) (q : PartTree) : Prop := ∀ is p, q.at? is = some p →
  (∃ text, p.cwlText = .ok text) ∧ (∃ text, p.jobText more = .ok text) ∧
    (nested → is ≠ [] → p.part.namespaces ≠ [])

def HasInputs (nested : Bool) (more : Entries) (dir : String) (q : PartTree)
    (fs : List (String × String)) : Prop :=
  ∀ is p, q.at? is = some p → ∃ text, p.jobText more = .ok text ∧
    (q.inputsFile nested dir is, text) ∈ fs

variable {nested : Bool} {more : Entries} {dir : String} {t u : Transcript} {part : Part}
  {ts : List PartTree}

theorem HasInputs.mono {q : PartTree} {fs gs : List (String × String)}
    (h : q.HasInputs nested more dir fs) (hfs : fs ⊆ gs) : q.HasInputs nested more dir gs := by
  intro is p hp
  obtain ⟨text, htext, hmem⟩ := h is p hp
  exact ⟨text, htext, hfs hmem⟩

theorem writable_node :
    (node part ts).Writable nested more ↔ (∃ text, (node part ts).cwlText = .ok text) ∧
      (∃ text, (node part ts).jobText more = .ok text) ∧
      ∀ s ∈ ts, (nested → s.part.namespaces ≠ []) ∧ s.Writable nested more := by
  constructor
  · intro h
    obtain ⟨hcwl, hjob, -⟩ := h [] _ rfl
    refine ⟨hcwl, hjob, fun s hs => ?_⟩
    obtain ⟨i, hi⟩ := List.getElem?_of_mem hs
    have hat : ∀ is, (node part ts).at? (i :: is) = s.at? is :=
      fun is => by rw [at?, subs, hi, Option.bind_some]
    refine ⟨fun hn => (h [i] s (hat [])).2.2 hn (List.cons_ne_nil _ _), fun is p hp => ?_⟩
    obtain ⟨hcwl, hjob, hnames⟩ := h (i :: is) p ((hat is).trans hp)
    exact ⟨hcwl, hjob, fun hn _ => hnames hn (List.cons_ne_nil _ _)⟩
  · rintro ⟨hcwl, hjob, hts⟩ (_ | ⟨i, is⟩) p hp
    · cases hp
      exact ⟨hcwl, hjob, by simp⟩
    · obtain ⟨s, hs, hp⟩ := at?_cons hp
      obtain ⟨hnames, hs⟩ := hts s (List.mem_of_getElem? hs)
      obtain ⟨hcwl, hjob, hbelow⟩ := hs is p hp
      refine ⟨hcwl, hjob, fun hn _ => ?_⟩
      cases is with
      | nil =>
        cases hp
        exact hnames hn
      | cons i is => exact hbelow hn (List.cons_ne_nil _ _)

mutual

theorem write_inputs (q : PartTree) {dir : String} {t u : Transcript}
    (h : (q.write nested more dir).outcome t = (.ok (), u)) :
    t.written ⊆ u.written ∧ q.Writable nested more ∧ q.HasInputs nested more dir u.written := by
  match q with
  | .node part ts =>
    obtain ⟨text, job, v, htext, hjob, hv, h⟩ := write_node h
    obtain ⟨hkept, hall⟩ := writeAll_inputs ts h
    refine ⟨fun f hf => hkept (by rw [hv]; simp [hf]),
      writable_node.mpr ⟨⟨text, htext⟩, ⟨job, hjob⟩, fun s hs => ?_⟩, ?_⟩
    · exact ⟨(hall s hs).1, (hall s hs).2.1⟩
    · rintro (_ | ⟨i, is⟩) p hp
      · cases hp
        exact ⟨job, hjob, hkept (by rw [hv]; exact List.mem_cons_self)⟩
      · obtain ⟨s, hs, hp⟩ := at?_cons hp
        rw [inputsFile, hs, Option.elim_some]
        exact (hall s (List.mem_of_getElem? hs)).2.2 is p hp

theorem writeAll_inputs (ts : List PartTree) {dir : String} {t u : Transcript}
    (h : (writeAll nested more dir ts).outcome t = (.ok (), u)) :
    t.written ⊆ u.written ∧ ∀ s ∈ ts, (nested → s.part.namespaces ≠ []) ∧ s.Writable nested more ∧
      s.HasInputs nested more (s.home nested dir) u.written := by
  match ts with
  | [] =>
    cases h
    exact ⟨fun _ hf => hf, by simp⟩
  | s :: ts =>
    obtain ⟨hnames, v, hs, h⟩ := writeAll_cons h
    obtain ⟨hkept, hwritable, hinputs⟩ := write_inputs s hs
    obtain ⟨hkept', hall⟩ := writeAll_inputs ts h
    exact ⟨fun f hf =>
      hkept' (hkept hf), List.forall_mem_cons.mpr ⟨⟨hnames, hwritable, hinputs.mono hkept'⟩, hall⟩⟩

end

mutual

theorem write_surely (q : PartTree) (dir : String) (hq : q.Writable nested more) :
    (q.write nested more dir).Surely () := by
  match q with
  | .node part ts =>
    obtain ⟨⟨text, htext⟩, ⟨job, hjob⟩, hts⟩ := writable_node.mp hq
    obtain ⟨cwl, hcwl, text, htext, -⟩ := of_bind₂ htext
    obtain ⟨job, hjob, text', htext', -⟩ := of_bind₂ hjob
    rw [write]
    refine (surely_lift hcwl).bind <| (surely_lift hjob).bind <| (surely_lift htext).bind ?_
    refine Surely.bind (fun _ => ⟨_, rfl⟩) <| (surely_lift htext').bind ?_
    exact Surely.bind (fun _ => ⟨_, rfl⟩) (writeAll_surely ts dir hts)

theorem writeAll_surely (ts : List PartTree) (dir : String)
    (hts : ∀ s ∈ ts, (nested → s.part.namespaces ≠ []) ∧ s.Writable nested more) :
    (writeAll nested more dir ts).Surely () := by
  match ts with
  | [] => exact surely_pure ()
  | s :: ts =>
    obtain ⟨⟨hnames, hs⟩, hts⟩ := List.forall_mem_cons.mp hts
    rw [writeAll]
    refine (surely_lift (dirIn_eq_ok.mpr ⟨hnames, rfl⟩)).bind ?_
    exact (write_surely s _ hs).bind (writeAll_surely ts dir hts)

end

end PartTree

/-- Inputs that are given beside a workflow are taken just when each of them can be, and each as it
is but for a relative location, which is seen from the directory above. With them a compiled
workflow is written just when each of its parts can be, and then the job inputs of each part,
overridden by them, are in its file. -/
theorem outerInputs_written (es more : Entries) (q : PartTree) (nested : Bool) (dir : String)
    (t : Transcript) :
    (outerInputs (.map es) = .ok more ↔ (∀ e ∈ es, Admitted e.2) ∧
      (es.map fun e => (e.1, fromAbove e.2)) = more) ∧
      ((∃ u, (q.write nested more dir).outcome t = (.ok (), u)) ↔ q.Writable nested more) ∧
      ∀ u, (q.write nested more dir).outcome t = (.ok (), u) →
      q.HasInputs nested more dir u.written := by
  refine ⟨mapM_outerInput, ⟨?_, fun hq => PartTree.write_surely q dir hq t⟩, fun u h =>
    (PartTree.write_inputs q h).2.2⟩
  rintro ⟨u, h⟩
  exact (PartTree.write_inputs q h).2.1

end WorkflowInference.Compile
