import WorkflowInference.Proofs.Compile.Workflow
import WorkflowInference.Proofs.Splitting

/-!
The steps of a workflow, one after another, and the workflows among them. A step finds what the
source says of it, and what it leaves is the same after all the later steps. Each workflow in the
tree that a compilation returns was compiled from the workflow at the same path of the source,
unless steps were put in.
-/
namespace WorkflowInference.Compile

open Entries Draft
open List hiding getD
open Workflow (isSubKey placeKey)

def keysIn (yml : Doc) : List String := (opened yml).elim [] (·.keys)

section Notes

variable {notes note : Doc} {i j : Nat} {key key' : String} {old new : Doc} {r : Doc × Doc}

def heldNote (notes : Doc) (i : Nat) (key : String) : Result Doc :=
  notes.fieldD (placeKey i key) (.map [])

theorem noteAt_congr (h : heldNote notes i key = heldNote notes' i key) :
    noteAt notes i key = noteAt notes' i key := by
  rw [noteAt, noteAt, ← heldNote, ← heldNote, h]

theorem noteAfter_heldNote (h : (noteAfter i key old new notes note).Yields r)
    (hne : i ≠ j ∨ key ≠ key') : heldNote r.1 j key' = heldNote notes j key' := by
  rcases noteAfter_cases h with ⟨-, rfl⟩ | ⟨-, wic, es, -, rfl, rfl⟩
  · rfl
  · have hplace : placeKey i key ≠ placeKey j key' := fun heq =>
      hne.elim (absurd (placeKey_inj heq).1) (absurd (placeKey_inj heq).2)
    simp only [heldNote, Doc.fieldD, getD, get?_put_ne hplace]

structure Awaits (o : Opening) (i : Nat) (d : Draft) : Prop where
  step : d.step i = o.steps.getD i .null
  note : ∀ key, heldNote d.notes i key = heldNote o.notes i key

theorem Awaits.noteAt_eq (h : Awaits o i d) (key : String) :
    noteAt d.notes i key = noteAt o.notes i key :=
  noteAt_congr (h.note key)

end Notes

structure Later (i : Nat) (d e : Draft) : Prop extends d.Below e where
  steps : ∀ m ≤ i, e.step m = d.step m
  notes : ∀ m ≤ i, ∀ key, heldNote e.notes m key = heldNote d.notes m key

section Once

variable {set : Setting} {i j : Nat} {P : Nat → Draft → Prop}
  {c : Scope} {key : String} {d e f : Draft} {w : String × Doc}

theorem StepRun.notes_kept (run : StepRun sub c i key d e) (hne : i ≠ j ∨ isSubKey key' = false) :
    heldNote e.notes j key' = heldNote d.notes j key' := by
  rw [run.entered.1]
  rcases run.brought_cases with ⟨⟨inner⟩⟩ | ⟨⟨tool⟩⟩
  · rw [(Alongside.of_core inner.brought).notes]
    refine noteAfter_heldNote inner.noting (hne.imp_right ?_)
    rintro htool rfl
    rw [inner.isSub] at htool
    cases htool
  · rw [tool.brought]

theorem Later.refl (i : Nat) (d : Draft) : Later i d d :=
  ⟨.refl d, fun _ _ => rfl, fun _ _ _ => rfl⟩

theorem Later.step (h : Later i d e) (run : StepRun sub c j key e f)
    (hlt : i < j) : Later i d f := by
  refine ⟨h.toBelow.trans run.frame.toBelow, fun m hm => ?_, fun m hm key' => ?_⟩
  · rw [run.frame.others m (by omega), h.steps m hm]
  · rw [run.notes_kept (.inl (by omega)), h.notes m hm]

section

variable (run : OnceRun sub set t r)

include run

theorem OnceRun.concluded : Nonempty (Concluded run.scope run.last r) :=
  conclude_spec run.concluding

theorem OnceRun.opened : opened t.yml = some run.start := opened_eq_some run.opening

theorem OnceRun.yml : r.tree.part.yml = t.yml := by
  obtain ⟨concl⟩ := run.concluded
  exact concl.yml

theorem OnceRun.progress : Progress (.start t run.start) run.start.keys.length run.last :=
  (run.keeps (P := fun _ _ => True) (fun _ _ _ _ _ _ _ _ _ => trivial) trivial).1

theorem OnceRun.own_declared (concl : Concluded run.scope run.last r)
    (h : has concl.own a) : a ∈ namesIn t.yml "inputs" := by
  have hown := run.progress.own
  rw [concl.own_eq] at hown
  obtain ⟨es, hes, hkeys⟩ := hown.of_map
  have hhas : has es a := by
    rw [has_iff_mem] at h ⊢
    rw [← Entries.keys, ← hkeys]
    exact h
  have hkept : get? run.start.tree "inputs" = under? t.yml "inputs" :=
    (openWorkflow_opens run.opening).kept "inputs" (by decide)
  change getD run.start.tree "inputs" (.map []) = .map es at hes
  rw [getD, hkept] at hes
  cases hget : under? t.yml "inputs" with
  | none =>
    rw [hget, Option.getD_none] at hes
    cases hes
    cases hhas
  | some v =>
    rw [hget, Option.getD_some] at hes
    exact (mem_namesIn_map (hget.trans (congrArg some hes))).mpr hhas

theorem OnceRun.subs_length : r.tree.subs.length = run.start.keys.length := by
  obtain ⟨concl⟩ := run.concluded
  rw [concl.subs, run.progress.parts]

theorem OnceRun.lt_of_sub (hp : r.tree.subs[i]? = some p) : i < run.start.keys.length :=
  run.subs_length ▸ (List.getElem?_eq_some_iff.mp hp).1

theorem OnceRun.keysIn_eq : keysIn t.yml = run.start.keys := by
  rw [keysIn, run.opened, Option.elim_some]

theorem OnceRun.lt_keys (hi : i < (keysIn t.yml).length) :
    i < run.scope.keys.length := by
  rw [run.keysIn_eq] at hi
  exact hi

theorem OnceRun.lt_of_innerAt (hw : innerAt t.yml i = some w) :
    i < run.start.keys.length := by
  obtain ⟨o, ho, hkey, -⟩ := innerAt_eq_some hw
  rw [run.opened] at ho
  cases ho
  exact (List.getElem?_eq_some_iff.mp hkey).1

end

structure StepIn (run : OnceRun sub set t r) (i : Nat) (d e : Draft) where
  key : String
  key_eq : run.start.keys[i]? = some key
  head : StepRun sub run.scope i key d e
  progress : Progress (.start t run.start) i d
  awaits : Awaits run.start i d
  parts : e.parts <+: run.last.parts

theorem OnceRun.keeps_steps (run : OnceRun sub set t r)
    (hstep : ∀ j d e, StepIn run j d e → P j d → P (j + 1) e) (hstart : P 0 (.start t run.start)) :
    P run.start.keys.length run.last := by
  refine (run.keeps (P := fun j d =>
    (∀ m, j ≤ m → ∀ key, heldNote d.notes m key = heldNote run.start.notes m key) ∧ P j d) ?_
    ⟨fun _ _ _ => rfl, hstart⟩).2.2
  rintro j key d e hkey hprog ⟨hnotes, hd⟩ head hparts
  refine ⟨fun m hm key' => ?_, hstep j d e ⟨key, hkey, head, hprog, ?_, hparts⟩ hd⟩
  · rw [head.notes_kept (.inl (by omega))]
    exact hnotes m (by omega) key'
  · exact ⟨hprog.later j (Nat.le_refl j), hnotes j (Nat.le_refl j)⟩

structure StepAt (run : OnceRun sub set t r) (P : Nat → Draft → Prop) (i : Nat) where
  before : Draft
  after : Draft
  here : StepIn run i before after
  holds : P i before
  later : Later i after run.last

section

variable (run : OnceRun sub set t r)

include run

theorem OnceRun.stepAt_since {Q : Draft → Draft → Prop}
    (hstep : ∀ j d e, StepIn run j d e → P j d → P (j + 1) e) (hstart : P 0 (.start t run.start))
    (hrefl : ∀ e, Q e e) (hsince : ∀ j x d e, StepIn run j d e → i < j → Q x d → Q x e)
    (hi : i < run.start.keys.length) : ∃ place : StepAt run P i, Q place.after run.last := by
  have hall := run.keeps_steps (P := fun j d =>
    P j d ∧ (i < j → ∃ before after, ∃ _ : StepIn run i before after,
    P i before ∧ Later i after d ∧ Q after d)) ?_ ⟨hstart, by simp⟩
  · obtain ⟨before, after, here, hP, hlater, hQ⟩ := hall.2 hi
    exact ⟨⟨before, after, here, hP, hlater⟩, hQ⟩
  · rintro j d e here ⟨hP, hd⟩
    refine ⟨hstep j d e here hP, fun hij => ?_⟩
    rcases Nat.lt_succ_iff_lt_or_eq.mp hij with hij | rfl
    · obtain ⟨before, after, there, hP', hlater, hQ⟩ := hd hij
      exact ⟨before, after, there, hP', hlater.step here.head hij, hsince j after d e here hij hQ⟩
    · exact ⟨d, e, here, hP, .refl i e, hrefl e⟩

theorem OnceRun.stepAt
    (hstep : ∀ j d e, StepIn run j d e → P j d → P (j + 1) e) (hstart : P 0 (.start t run.start))
    (hi : i < run.start.keys.length) : Nonempty (StepAt run P i) :=
  let ⟨place, _⟩ := run.stepAt_since (Q := fun _ _ => True) hstep hstart (by simp) (by simp) hi
  ⟨place⟩

theorem OnceRun.placeAt (hi : i < run.start.keys.length) :
    Nonempty (StepAt run (fun _ _ => True) i) := run.stepAt (fun _ _ _ _ _ => trivial) trivial hi

end

section StepIn

variable {run : OnceRun sub set t r} (here : StepIn run i d e)

include here

theorem StepIn.keys_getD : (keysIn t.yml).getD i "" = here.key := by
  rw [run.keysIn_eq, getD_of_getElem? here.key_eq]

theorem StepIn.lt_length : i < (keysIn t.yml).length := by
  rw [run.keysIn_eq]
  exact (List.getElem?_eq_some_iff.mp here.key_eq).1

theorem StepIn.noted :
    noteAt run.start.notes i here.key = .ok (here.head.note, here.head.space) :=
  (here.awaits.noteAt_eq here.key).symm.trans here.head.noted

theorem StepIn.subs_eq (hp : here.head.brought.parts = d.parts ++ [p]) :
    r.tree.subs[i]? = some p := by
  obtain ⟨concl⟩ := run.concluded
  obtain ⟨rest, hrest⟩ := here.parts
  rw [concl.subs, ← hrest, here.head.entered.2.1, hp, append_assoc,
    getElem?_append_right (Nat.le_of_eq here.progress.parts), here.progress.parts, Nat.sub_self]
  rfl

theorem StepIn.inner_spec (inner : SubRun here.head) :
    innerAt t.yml i = some (here.key, inner.yml) ∧ r.tree.subs[i]? = some inner.result.tree := by
  refine ⟨innerAt_of_step run.opened here.key_eq inner.isSub ?_,
    here.subs_eq (Alongside.of_core inner.brought).parts⟩
  rw [← here.awaits.step]
  exact inner.found

theorem StepIn.exists_inner (hw : innerAt t.yml i = some w) :
    ∃ inner : SubRun here.head, (here.key, inner.yml) = w ∧
      r.tree.subs[i]? = some inner.result.tree := by
  obtain ⟨o, ho, hkey, hsub, -⟩ := innerAt_eq_some hw
  cases run.opened.symm.trans ho
  have hkey := Option.some.inj (here.key_eq.symm.trans hkey)
  rcases here.head.brought_cases with ⟨⟨inner⟩⟩ | ⟨⟨tool⟩⟩
  · obtain ⟨hat, hpart⟩ := here.inner_spec inner
    exact ⟨inner, Option.some.inj (hat.symm.trans hw), hpart⟩
  · rw [← hkey, tool.isTool] at hsub
    cases hsub

theorem StepIn.innerAt_tool (tool : ToolRun here.head) : innerAt t.yml i = none := by
  cases hat : innerAt t.yml i with
  | none => rfl
  | some v =>
    obtain ⟨inner, -⟩ := here.exists_inner hat
    have hsub := inner.isSub
    rw [tool.isTool] at hsub
    cases hsub

end StepIn

theorem StepAt.tools_eq (place : StepAt run P i) :
    run.last.tools[i]? = some place.here.head.tool := by
  obtain ⟨rest, hrest⟩ := place.later.tools
  rw [← hrest, place.here.head.entered.2.2, append_assoc,
    getElem?_append_right (Nat.le_of_eq place.here.progress.tools), place.here.progress.tools,
    Nat.sub_self]
  rfl

end Once

end WorkflowInference.Compile

namespace WorkflowInference.Compile

open Entries Logged

variable {w : String × Doc} {i : Nat} {key : String} {d e : Draft}

def PartTree.at? : PartTree → List Nat → Option PartTree
  | q, [] => some q
  | q, i :: is => (q.subs[i]?).bind (·.at? is)

abbrev Task.flow (t : Task) : String × Doc := (t.path, t.yml)

/-- No steps were put in: each workflow in the tree comes of the one that stands there. -/
def Unaltered (q : PartTree) (w : String × Doc) : Prop :=
  ∀ is v p, subAt w is = some v → q.at? is = some p → p.part.yml = v.2

theorem Unaltered.yml (h : Unaltered q w) : q.part.yml = w.2 := h [] w q rfl rfl

theorem Unaltered.inner (h : Unaltered q w) (hv : innerAt w.2 i = some v)
    (hp : q.subs[i]? = some p) : Unaltered p v := by
  intro is u s hu hs
  exact h (i :: is) u s (by rw [subAt, hv, Option.bind_some, hu])
    (by rw [PartTree.at?, hp, Option.bind_some, hs])

section Kept

variable {set : Setting} {n : Nat}

theorem OnceRun.inner (run : OnceRun sub set t r) (hw : innerAt t.yml i = some w) :
    ∃ u s, (sub u).Yields s ∧ r.tree.subs[i]? = some s.tree ∧ u.flow = w := by
  obtain ⟨place⟩ := run.placeAt (run.lt_of_innerAt hw)
  obtain ⟨inner, hflow, hpart⟩ := place.here.exists_inner hw
  exact ⟨_, inner.result, inner.running, hpart, hflow⟩

theorem compileOnce_yml (h : (compileOnce sub set t).Yields r) :
    r.tree.part.yml = t.yml ∨ stepCount t.yml < stepCount r.tree.part.yml := by
  rcases compileOnce_cases h with ⟨⟨run⟩⟩ | ⟨_, _, _, _, _, -, hins⟩
  · exact .inl run.yml
  · exact .inr (withInsertion_stepCount hins)

theorem compileAt_rounds (h : (compileAt set (n + 1) t).Yields r) :
    t.graphs.length ≠ maxRounds + 1 ∧
      (rounds (compileOnce (compileAt set n) set) maxRounds t).Yields r := by
  obtain ⟨r', hr', h⟩ := h.of_bind
  split at h
  · obtain ⟨-, -, h⟩ := h.of_bind
    obtain ⟨-, h, -⟩ := h.of_bind
    exact absurd h yields_throw
  · rename_i hlen
    dsimp only at h
    rw [← yields_pure.mp h]
    exact ⟨hlen, hr'⟩

theorem compileAt_succ (h : (compileAt set n t).Yields r) : ∃ m, n = m + 1 := by
  cases n with
  | zero => exact absurd h yields_throw
  | succ n => exact ⟨n, rfl⟩

theorem compileAt_once (h : (compileAt set (n + 1) t).Yields r) (hyml : r.tree.part.yml = t.yml) :
    Nonempty (OnceRun (compileAt set n) set t r) := by
  rcases rounds_cases (fun u r hu => compileOnce_yml hu) (compileAt_rounds h).2
    with hlt | ⟨-, honce⟩
  · rw [hyml] at hlt
    exact absurd hlt (Nat.lt_irrefl _)
  · rcases compileOnce_cases honce with hrun | ⟨_, _, _, _, _, -, hins⟩
    · exact hrun
    · have := withInsertion_stepCount hins
      rw [hyml] at this
      exact absurd this (Nat.lt_irrefl _)

section

variable (hno : set.options.insertSteps = false)

include hno

theorem compileOnce_kept
    (h : (compileOnce sub set t).Yields r) : r.tree.part.yml = t.yml := by
  rcases compileOnce_cases h with ⟨⟨run⟩⟩ | ⟨_, _, _, _, _, hsteps, -⟩
  · exact run.yml
  · have := compileSteps_insertion hsteps rfl
    rw [hno] at this
    cases this

theorem compileAt_yml (h : (compileAt set n t).Yields r) :
    r.tree.part.yml = t.yml := by
  obtain ⟨n, rfl⟩ := compileAt_succ h
  exact rounds_induct (P := fun t r => r.tree.part.yml = t.yml) (fun t r h => compileOnce_kept hno
    h) (fun t s r hs h => h.trans (compileOnce_kept hno hs)) (compileAt_rounds h).2

theorem compileAt_unaltered (h : (compileAt set n t).Yields r) :
    Unaltered r.tree t.flow := by
  induction n generalizing t r with
  | zero => exact absurd h yields_throw
  | succ n ih =>
    have hyml := compileAt_yml hno h
    obtain ⟨run⟩ := compileAt_once h hyml
    rintro (_ | ⟨i, is⟩) v p hv hp
    · cases hv
      cases hp
      exact hyml
    · obtain ⟨w, hw, hv⟩ := Option.bind_eq_some_iff.mp hv
      obtain ⟨q, hq, hp⟩ := Option.bind_eq_some_iff.mp hp
      obtain ⟨u, s, hs, hpart, rfl⟩ := run.inner hw
      rw [hpart] at hq
      cases hq
      exact ih hs is v p hv hp

end

/-- A compilation of a workflow that no steps are put into. -/
structure Faithful (set : Setting) (n : Nat) (t : Task) (r : Compiled) : Prop where
  yields : (compileAt set n t).Yields r
  kept : Unaltered r.tree t.flow

theorem Faithful.once (h : Faithful set (n + 1) t r) :
    Nonempty (OnceRun (compileAt set n) set t r) :=
  compileAt_once h.yields h.kept.yml

theorem Faithful.induction {P : ∀ {n t r}, Faithful set n t r → Prop}
    (step : ∀ {n t r} (h : Faithful set (n + 1) t r), OnceRun (compileAt set n) set t r →
      (∀ {u s} (h : Faithful set n u s), P h) → P h) (h : Faithful set n t r) : P h := by
  induction n generalizing t r with
  | zero => exact absurd h.yields yields_throw
  | succ n ih =>
    obtain ⟨run⟩ := h.once
    exact step h run ih

theorem Faithful.inner (h : Faithful set (n + 1) t r) (hw : innerAt t.yml i = some w) :
    ∃ u s, Faithful set n u s ∧ r.tree.subs[i]? = some s.tree ∧ u.flow = w := by
  obtain ⟨run⟩ := h.once
  obtain ⟨u, s, hs, hsubs, rfl⟩ := run.inner hw
  exact ⟨u, s, ⟨hs, h.kept.inner hw hsubs⟩, hsubs, rfl⟩

theorem Faithful.atPath (h : Faithful set n t r) (hw : subAt t.flow is = some w) :
    ∃ m u s, Faithful set (m + 1) u s ∧ Nonempty (OnceRun (compileAt set m) set u s) ∧ u.flow = w ∧
      r.tree.at? is = some s.tree := by
  induction is generalizing n t r with
  | nil =>
    obtain ⟨n, rfl⟩ := compileAt_succ h.yields
    cases hw
    exact ⟨n, t, r, h, h.once, rfl, rfl⟩
  | cons i is ih =>
    obtain ⟨n, rfl⟩ := compileAt_succ h.yields
    obtain ⟨v, hv, hw⟩ := Option.bind_eq_some_iff.mp hw
    obtain ⟨u, s, hs, hsubs, rfl⟩ := h.inner hv
    rw [PartTree.at?, hsubs, Option.bind_some]
    exact ih hs hw

theorem StepIn.inner_kept {run : OnceRun sub set t r} (here : StepIn run i d e)
    (hun : Unaltered r.tree t.flow) (inner : SubRun here.head) :
    Unaltered inner.result.tree (here.key, inner.yml) :=
  hun.inner (here.inner_spec inner).1 (here.inner_spec inner).2

theorem StepIn.inner_faithful {run : OnceRun (compileAt set n) set t r} (here : StepIn run i d e)
    (hun : Unaltered r.tree t.flow) (inner : SubRun here.head) :
    Faithful set n (subTask run.scope here.key here.head.site.name inner.yml inner.graph d)
      inner.result :=
  ⟨inner.running, here.inner_kept hun inner⟩

theorem compile_unaltered (hno : set.options.insertSteps = false) (h : (compile set t).Yields r) :
    Unaltered r.tree t.flow := by
  obtain ⟨s, hs, rfl⟩ := h.of_map
  exact (compileAt_unaltered hno hs :)

end Kept

/-! Small documents for examples. -/

namespace Sample

def text : Doc := Doc.obj [("type", .str "string")]

def file : Doc := Doc.obj [("type", .str "File")]

def tool (stem : String) (ins outs : List (String × Doc)) : StepId × Tool :=
  (⟨stem, globalSpace⟩, ⟨stem ++ ".cwl",
    Doc.obj [("class", .str "CommandLineTool"), ("inputs", Doc.obj ins),
      ("outputs", Doc.obj outs)]⟩)

def echoTool : StepId × Tool := tool "echo" [("m", text)] [("o", file)]

def catTool : StepId × Tool := tool "cat" [("f", file)] [("g", file)]

def interpreterTool : StepId × Tool :=
  tool "cwl_subinterpreter" [("root_workflow_yml_path", text), ("cachedir_path", text),
    ("homedir", text)] [("o", file)]

def setting (tools : Registry) : Setting :=
  { tags := ⟨"cache", "wf.wic", "home"⟩, tools, cwd := "/" }

def step (key : String) (fields : List (String × Doc)) : Doc := Doc.obj (("id", .str key) :: fields)

def inner (key : String) (yml : Doc) : Doc := step key [("subtree", yml), ("parentargs", .emptyMap)]

def inline (v : String) : Doc := Doc.obj [(Yaml.inlineKey, .str v)]

def anchor (name : String) : Doc := Doc.obj [(Yaml.anchorKey, .str name)]

def reference (name : String) : Doc := Doc.obj [(Yaml.aliasKey, .str name)]

def workflow (steps : List Doc) : Doc := Doc.obj [("steps", .list steps)]

def compiled (set : Setting) (path : String) (yml : Doc) : Option Compiled :=
  ((compile set (.root path yml (Graph.empty "" ""))).outcome {}).1.toOption

end Sample

end WorkflowInference.Compile
