import WorkflowInference.Compile.Layout
import WorkflowInference.Proofs.Compile.Unique
import WorkflowInference.Proofs.Path
import Mathlib.Data.List.Nodup

/-!
Compiled workflows on disk. A workflow is written into a directory, and what its steps run into
directories inside of it that go by the names of the steps. A step says where the document lies that
it runs, seen from the workflow, and there it is written. The names tell the places of the steps, so
no file is written twice, as long as no key of a step leads up again.
-/
namespace WorkflowInference

open Entries Result Logged Path
open List hiding getD

namespace Logged

variable {α : Type} {t u : Transcript}

theorem outcome_of_lift {r : Result α} {a : α} (h : (liftM r : Logged α).outcome t = (.ok a, u)) :
    r = .ok a ∧ u = t := by
  cases r with
  | error e => cases congrArg Prod.fst h
  | ok b =>
    cases h
    exact ⟨rfl, rfl⟩

theorem outcome_of_write (h : (write path text).outcome t = (.ok (), u)) :
    u.written = (path, text) :: t.written := by
  cases h
  rfl

end Logged

namespace Compile

namespace PartTree

def cwlText (q : PartTree) : Result String := do
  let cwl ← Run.normalCwl (Run.runsOf q) q.part.cwl
  let text ← Yaml.write cwl
  return "#!/usr/bin/env cwl-runner\n" ++ header ++ text

def jobText (more : Entries) (q : PartTree) : Result String := do
  let job ← Run.normalJobInputs (Run.runsOf q) q.part.cwl
    (.map (Entries.update q.part.jobInputs more))
  let text ← Yaml.write job
  return header ++ text

def fileOf (nested : Bool) (dir : String) (part : Part) (ext : String) : String :=
  Path.join dir
    (if nested then part.name ++ ext else Namespaces.join (part.namespaces ++ [part.name ++ ext]))

def home (nested : Bool) (dir : String) (q : PartTree) : String :=
  if nested then Path.join dir q.lastName else dir

def runText (q : PartTree) (i : Nat) : Option String :=
  (Run.normalCwl (Run.runsOf q) q.part.cwl).toOption.bind fun doc =>
    ((under? doc "steps").bind Doc.list?).bind fun xs => (xs[i]?).bind fun x =>
      (under? x "run").bind Doc.str?

mutual

def rels : PartTree → List (List String)
  | .node p ts => [p.name ++ ".cwl"] :: [p.name ++ "_inputs.yml"] :: relsAll ts

def relsAll : List PartTree → List (List String)
  | [] => []
  | t :: ts => (rels t).map (Path.parts t.lastName ++ ·) ++ relsAll ts

end

def Filed (K : String → Prop) (q : PartTree) : Prop :=
  ∃ (stem : String) (key : Nat → String), '/' ∉ stem.toList ∧
    ∀ (i : Nat) (p : PartTree), q.subs[i]? = some p →
    p.lastName = stepName stem i (key i) ∧ K (key i) ∧ '/' ∉ p.part.name.toList

def Everywhere (P : PartTree → Prop) (q : PartTree) : Prop := ∀ is p, q.at? is = some p → P p

section Rels

variable {P : PartTree → Prop} {K : String → Prop} {q p : PartTree} {name : String}

theorem way_append (h : q.at? is = some p) (js : List Nat) :
    q.way (is ++ js) = q.way is ++ p.way js := by
  induction is generalizing q with
  | nil =>
    cases h
    rfl
  | cons i is ih =>
    obtain ⟨s, hs, h⟩ := at?_cons h
    rw [cons_append, way_cons hs, way_cons hs, ih h, cons_append]

theorem Everywhere.self (h : Everywhere P q) : P q := h [] q rfl

theorem Everywhere.sub (h : Everywhere P q) (hp : p ∈ q.subs) : Everywhere P p := by
  obtain ⟨i, hi⟩ := getElem?_of_mem hp
  intro is s hs
  exact h (i :: is) s (by rw [at?, hi, Option.bind_some, hs])

theorem isPart_cwl (h : '/' ∉ name.toList) : IsPart (name ++ ".cwl") :=
  isPart_append_ext h (by decide) (by decide)

theorem isPart_inputs (h : '/' ∉ name.toList) : IsPart (name ++ "_inputs.yml") :=
  isPart_append_ext h (by decide) (by decide)

structure Lies (K : String → Prop) (p : PartTree) : Prop where
  relative : ∀ s, isAbsolute (p.lastName ++ s) = false
  name : '/' ∉ p.part.name.toList
  up : ∀ x ∈ Path.parts p.lastName, x = ".." → ∃ key, K key ∧ ".." ∈ Path.parts key

theorem Filed.sub (h : Filed K q) (hp : p ∈ q.subs) : Lies K p := by
  obtain ⟨stem, key, hstem, hall⟩ := h
  obtain ⟨i, hi⟩ := getElem?_of_mem hp
  obtain ⟨hname, hkey, hslash⟩ := hall i p hi
  refine ⟨fun s => by rw [hname]; exact stepName_relative hstem i _ s, hslash, fun x hx hup => ?_⟩
  obtain ⟨k, rest, hparts, hrest⟩ := parts_stepName hstem i (key i)
  rw [hname, hparts] at hx
  rcases mem_cons.mp hx with rfl | hx
  · exact absurd hup (stepName_ne_up i k)
  · exact ⟨key i, hkey, hup ▸ hrest x hx⟩

theorem append_ext_ne_up (h : 2 < ext.toList.length) : s ++ ext ≠ ".." := by
  intro heq
  have hlen := congrArg (fun s => s.toList.length) heq
  simp only [String.toList_append, length_append] at hlen
  simp at hlen
  have : ext.length = ext.toList.length := String.length_toList.symm
  omega

mutual

theorem rels_parts (q : PartTree) (hname : '/' ∉ q.part.name.toList) (hq : Everywhere (Filed K) q) :
    ∀ xs ∈ q.rels, ∀ x ∈ xs, IsPart x ∧ (x = ".." → ∃ key, K key ∧ ".." ∈ Path.parts key) := by
  match q with
  | .node p ts =>
    intro xs hxs x hx
    rw [rels] at hxs
    rcases mem_cons.mp hxs with rfl | hxs
    · rw [mem_singleton.mp hx]
      exact ⟨isPart_cwl hname, fun hup => absurd hup (append_ext_ne_up (by decide))⟩
    rcases mem_cons.mp hxs with rfl | hxs
    · rw [mem_singleton.mp hx]
      exact ⟨isPart_inputs hname, fun hup => absurd hup (append_ext_ne_up (by decide))⟩
    · exact relsAll_parts ts (fun s hs => hq.self.sub hs) (fun s hs => hq.sub hs) xs hxs x hx

theorem relsAll_parts (ts : List PartTree) (hts : ∀ s ∈ ts, Lies K s)
    (hq : ∀ s ∈ ts, Everywhere (Filed K) s) :
    ∀ xs ∈ relsAll ts, ∀ x ∈ xs, IsPart x ∧ (x = ".." → ∃ key, K key ∧ ".." ∈ Path.parts key) := by
  match ts with
  | [] =>
    intro xs hxs
    cases hxs
  | s :: ts =>
    intro xs hxs x hx
    rw [relsAll] at hxs
    have hs := hts s mem_cons_self
    rcases mem_append.mp hxs with hxs | hxs
    · obtain ⟨ys, hys, rfl⟩ := mem_map.mp hxs
      rcases mem_append.mp hx with hx | hx
      · exact ⟨isPart_of_mem hx, hs.up x hx⟩
      · exact rels_parts s hs.name (hq s mem_cons_self) ys hys x hx
    · exact relsAll_parts ts (fun u hu => hts u (mem_cons_of_mem _ hu)) (fun u hu =>
        hq u (mem_cons_of_mem _ hu)) xs hxs x hx

end

mutual

theorem rels_nodup (q : PartTree) (hq : Everywhere (Filed K) q) :
    q.rels.Nodup ∧ ∀ xs ∈ q.rels, xs ≠ [] := by
  match q with
  | .node p ts =>
    obtain ⟨stem, key, hstem, hall⟩ := hq.self
    obtain ⟨hnodup, hbelow⟩ := relsAll_nodup stem key hstem 0 ts
      (fun i s hs => by rw [Nat.zero_add]; exact (hall i s hs).1) fun s hs => hq.sub hs
    have hfile : ∀ x, [x] ∉ relsAll ts := by
      intro x hx
      obtain ⟨j, k, y, ys, -, heq⟩ := hbelow _ hx
      cases heq
    have hne : p.name ++ ".cwl" ≠ p.name ++ "_inputs.yml" := by
      intro heq
      have hlen := congrArg (fun s => s.toList.length) heq
      simp at hlen
    rw [rels]
    constructor
    · refine nodup_cons.mpr ⟨?_, nodup_cons.mpr ⟨hfile _, hnodup⟩⟩
      rw [mem_cons, not_or]
      exact ⟨fun heq => hne (singleton_inj.mp heq), hfile _⟩
    · intro xs hxs
      rcases mem_cons.mp hxs with rfl | hxs
      · exact cons_ne_nil _ _
      rcases mem_cons.mp hxs with rfl | hxs
      · exact cons_ne_nil _ _
      · obtain ⟨j, k, y, ys, -, rfl⟩ := hbelow _ hxs
        exact cons_ne_nil _ _

theorem relsAll_nodup (stem : String) (key : Nat → String) (hstem : '/' ∉ stem.toList) (m : Nat)
    (ts : List PartTree)
    (hts : ∀ i s, ts[i]? = some s → s.lastName = stepName stem ((m + i : Nat) : Int) (key (m + i)))
    (hq : ∀ s ∈ ts, Everywhere (Filed K) s) :
    (relsAll ts).Nodup ∧ ∀ xs ∈ relsAll ts, ∃ (j : Nat) (k y : String) (ys : List String), m ≤ j ∧
      xs = stepName stem j k :: y :: ys := by
  match ts with
  | [] => exact ⟨nodup_nil, fun xs hxs => by cases hxs⟩
  | s :: ts =>
    obtain ⟨hnodup, hne⟩ := rels_nodup s (hq s mem_cons_self)
    obtain ⟨hrest, hlater⟩ := relsAll_nodup stem key hstem (m + 1) ts
      (fun i u hu => by rw [show m + 1 + i = m + (i + 1) by omega]; exact hts (i + 1) u hu)
      fun u hu => hq u (mem_cons_of_mem _ hu)
    obtain ⟨k, rest, hparts, -⟩ := parts_stepName hstem m (key m)
    have hfirst : ∀ xs ∈ (rels s).map (Path.parts s.lastName ++ ·), ∃ y ys, xs =
        stepName stem m k :: y :: ys := by
      intro xs hxs
      obtain ⟨ys, hys, rfl⟩ := mem_map.mp hxs
      have hname : s.lastName = stepName stem m (key m) := hts 0 s rfl
      obtain ⟨z, zs, hzs⟩ := exists_cons_of_ne_nil (l := rest ++ ys) (by simp [hne ys hys])
      exact ⟨z, zs, by rw [hname, hparts, cons_append, hzs]⟩
    rw [relsAll]
    constructor
    · refine nodup_append.mpr ⟨hnodup.map (append_right_injective _), hrest, ?_⟩
      rintro xs hxs _ hys rfl
      obtain ⟨y, ys, rfl⟩ := hfirst xs hxs
      obtain ⟨j, l, z, zs, hj, heq⟩ := hlater _ hys
      have := (stepName_inj (cons.inj heq).1).1
      omega
    · intro xs hxs
      rcases mem_append.mp hxs with hxs | hxs
      · obtain ⟨y, ys, rfl⟩ := hfirst xs hxs
        exact ⟨m, k, y, ys, Nat.le_refl m, rfl⟩
      · obtain ⟨j, l, y, ys, hj, rfl⟩ := hlater xs hxs
        exact ⟨j, l, y, ys, by omega, rfl⟩

end

end Rels

def cwlFile (q : PartTree) (dir : String) (is : List Nat) (p : PartTree) : String :=
  below dir ((q.way is).flatMap Path.parts ++ [p.part.name ++ ".cwl"])

/-- The files of a compiled workflow: there are no others, and each document is in the file of its
part. -/
structure Stored (q : PartTree) (dir : String) (fs : List (String × String)) : Prop where
  paths : fs.map (·.1) = q.rels.map (below dir)
  texts : ∀ is p, q.at? is = some p → ∃ text, p.cwlText = .ok text ∧ (q.cwlFile dir is p, text) ∈ fs

section Apart

variable {q : PartTree} {dir : String} {fs : List (String × String)} {K : String → Prop}

variable (hname : '/' ∉ q.part.name.toList)

include hname

theorem rels_apart (hq : Everywhere (Filed K) q) (dir : String) :
    (q.rels.map (below dir)).Nodup := by
  have hparts : ∀ xs ∈ q.rels, ∀ x ∈ xs, IsPart x :=
    fun xs hxs x hx => (rels_parts q hname hq xs hxs x hx).1
  exact (rels_nodup q hq).1.map_on fun xs hxs ys hys heq =>
    below_inj (hparts xs hxs) (hparts ys hys) heq

theorem Stored.apart (h : q.Stored dir fs) (hq : Everywhere (Filed K) q) :
    (fs.map (·.1)).Nodup := by
  rw [h.paths]
  exact rels_apart hname hq dir

theorem Stored.apart_resolved (h : q.Stored dir fs)
    (hq : Everywhere (Filed fun key => ".." ∉ Path.parts key) q) (cwd : String) :
    (fs.map fun f => resolve cwd f.1).Nodup := by
  have hparts := rels_parts q hname hq
  have hdown : ∀ xs ∈ q.rels, ".." ∉ xs := by
    intro xs hxs hmem
    obtain ⟨key, hno, hkey⟩ := (hparts xs hxs _ hmem).2 rfl
    exact hno hkey
  have hplaces : (fs.map (·.1)).map (resolve cwd) = q.rels.map (below (resolve cwd dir)) := by
    rw [h.paths, map_map]
    apply map_congr_left
    intro xs hxs
    rw [Function.comp_apply, resolve_below cwd (fun x hx => (hparts xs hxs x hx).1) (hdown xs hxs)]
  have hsplit : (fs.map fun f => resolve cwd f.1) = (fs.map (·.1)).map (resolve cwd) := by
    simp only [map_map, Function.comp_def]
  rw [hsplit, hplaces]
  exact rels_apart hname hq _

end Apart

section Writing

variable {K : String → Prop} {nested : Bool} {more : Entries} {dir : String} {t u : Transcript}
  {ts : List PartTree}

theorem write_node {part : Part}
    (h : ((PartTree.node part ts).write nested more dir).outcome t = (.ok (), u)) :
    ∃ text job v, (PartTree.node part ts).cwlText = .ok text ∧
      (PartTree.node part ts).jobText more = .ok job ∧
      v.written = (fileOf nested dir part "_inputs.yml", job) :: (fileOf nested dir part ".cwl",
          text) :: t.written ∧
        (writeAll nested more dir ts).outcome v = (.ok (), u) := by
  rw [PartTree.write] at h
  obtain ⟨cwl, v, hcwl, h⟩ := outcome_of_bind h
  obtain ⟨hcwl, hv⟩ := outcome_of_lift hcwl
  rw [hv] at h
  obtain ⟨job, v, hjob, h⟩ := outcome_of_bind h
  obtain ⟨hjob, hv⟩ := outcome_of_lift hjob
  rw [hv] at h
  obtain ⟨cwlText, v, hcwlText, h⟩ := outcome_of_bind h
  obtain ⟨hcwlText, hv⟩ := outcome_of_lift hcwlText
  rw [hv] at h
  obtain ⟨⟨⟩, v, hone, h⟩ := outcome_of_bind h
  obtain ⟨jobText, v', hjobText, h⟩ := outcome_of_bind h
  obtain ⟨hjobText, hv⟩ := outcome_of_lift hjobText
  rw [hv] at h
  obtain ⟨⟨⟩, w, htwo, h⟩ := outcome_of_bind h
  have htwo := outcome_of_write htwo
  rw [outcome_of_write hone] at htwo
  refine ⟨_, _, w, ?_, ?_, htwo, h⟩
  · exact bind_eq_ok.mpr ⟨cwl, hcwl, bind_eq_ok.mpr ⟨cwlText, hcwlText, rfl⟩⟩
  · exact bind_eq_ok.mpr ⟨job, hjob, bind_eq_ok.mpr ⟨jobText, hjobText, rfl⟩⟩

theorem dirIn_eq_ok {q : PartTree} {sub : String} :
    q.dirIn nested dir = .ok sub ↔ (nested → q.part.namespaces ≠ []) ∧ q.home nested dir = sub := by
  cases nested with
  | false => simp [dirIn, home]
  | true =>
    cases hlast : q.part.namespaces.getLast? with
    | none => simp [dirIn, getLast?_eq_none_iff.mp hlast]
    | some n =>
      have hne : q.part.namespaces ≠ [] := fun hnil => by simp [hnil] at hlast
      simp [dirIn, home, hlast, lastName_eq hlast, hne]

theorem writeAll_cons {q : PartTree}
    (h : (writeAll nested more dir (q :: ts)).outcome t = (.ok (), u)) :
    (nested → q.part.namespaces ≠ []) ∧ ∃ v, (q.write nested more (q.home nested dir)).outcome t =
      (.ok (), v) ∧
      (writeAll nested more dir ts).outcome v = (.ok (), u) := by
  rw [writeAll] at h
  obtain ⟨sub, v, hsub, h⟩ := outcome_of_bind h
  obtain ⟨hdir, hv⟩ := outcome_of_lift hsub
  obtain ⟨hnames, rfl⟩ := dirIn_eq_ok.mp hdir
  rw [hv] at h
  obtain ⟨⟨⟩, w, hq, h⟩ := outcome_of_bind h
  exact ⟨hnames, w, hq, h⟩

mutual

theorem write_stored (q : PartTree) {dir : String} {t u : Transcript}
    (hname : '/' ∉ q.part.name.toList) (hq : Everywhere (Filed K) q)
    (h : (q.write true more dir).outcome t = (.ok (), u)) :
    ∃ fs, u.written = fs.reverse ++ t.written ∧ q.Stored dir fs := by
  match q with
  | .node part ts =>
    change '/' ∉ part.name.toList at hname
    obtain ⟨text, job, v, htext, -, hv, h⟩ := write_node h
    have hfile : ∀ s, IsPart s → join dir s = below dir [s] := by
      intro s hs
      rw [join_eq hs.relative, parts_of_isPart hs]
    rw [fileOf, fileOf, if_pos rfl, if_pos rfl, hfile _ (isPart_cwl hname),
      hfile _ (isPart_inputs hname)] at hv
    obtain ⟨fs, hu, hpaths, hsubs⟩ :=
      writeAll_stored ts (fun s hs => hq.self.sub hs) (fun s hs => hq.sub hs) h
    refine ⟨(below dir [part.name ++ ".cwl"],
      text) :: (below dir [part.name ++ "_inputs.yml"], job) :: fs,
      ?_, ?_, ?_⟩
    · rw [hu, hv, reverse_cons, reverse_cons]
      simp
    · rw [map_cons, map_cons, hpaths, rels]
      rfl
    · rintro (_ | ⟨i, is⟩) p hp
      · cases hp
        exact ⟨text, htext, mem_cons_self⟩
      · obtain ⟨s, hs, hp⟩ := at?_cons hp
        obtain ⟨gs, hgs, hstored⟩ := hsubs i s hs
        obtain ⟨text, htext, hmem⟩ := hstored.texts is p hp
        refine ⟨text, htext, mem_cons_of_mem _ (mem_cons_of_mem _ (hgs ?_))⟩
        rw [cwlFile, below_below fun _ hx => isPart_of_mem hx] at hmem
        rw [cwlFile, way_cons hs, flatMap_cons, append_assoc]
        exact hmem

theorem writeAll_stored (ts : List PartTree) {dir : String} {t u : Transcript}
    (hts : ∀ s ∈ ts, Lies K s) (hq : ∀ s ∈ ts, Everywhere (Filed K) s)
    (h : (writeAll true more dir ts).outcome t = (.ok (), u)) :
    ∃ fs : List (String × String), u.written = fs.reverse ++ t.written ∧
      fs.map (·.1) = (relsAll ts).map (below dir) ∧
      ∀ (i : Nat) (s : PartTree), ts[i]? = some s → ∃ gs, gs ⊆ fs ∧
      s.Stored (below dir (Path.parts s.lastName)) gs := by
  match ts with
  | [] =>
    cases h
    exact ⟨[], rfl, rfl, by simp⟩
  | s :: ts =>
    have hlies := hts s mem_cons_self
    obtain ⟨-, v, hs, h⟩ := writeAll_cons h
    rw [home, if_pos rfl, join_eq (by simpa using hlies.relative "")] at hs
    obtain ⟨gs, hv, hgs⟩ := write_stored s hlies.name (hq s mem_cons_self) hs
    obtain ⟨fs, hu, hpaths, hsubs⟩ := writeAll_stored ts (fun p hp => hts p (mem_cons_of_mem _ hp))
      (fun p hp => hq p (mem_cons_of_mem _ hp)) h
    refine ⟨gs ++ fs, ?_, ?_, ?_⟩
    · rw [hu, hv, reverse_append, append_assoc]
    · have hbelow : s.rels.map (below (below dir (Path.parts s.lastName))) =
          s.rels.map (below dir ∘ (Path.parts s.lastName ++ ·)) := by
        apply map_congr_left
        intro xs _
        rw [Function.comp_apply, below_below fun _ hx => isPart_of_mem hx]
      rw [map_append, hgs.paths, hpaths, relsAll, map_append, map_map, hbelow]
    · rintro (_ | i) p hp
      · cases hp
        exact ⟨gs, subset_append_left gs fs, hgs⟩
      · obtain ⟨ks, hks, hstored⟩ := hsubs i p hp
        exact ⟨ks, List.Subset.trans hks (subset_append_right gs fs), hstored⟩

end

end Writing

end PartTree

section Run

variable {s : String}

theorem prepare_run {name : String} {tool : Tool} (h : prepare c name i key tool d = .ok e)
    (hs : under? (e.step i) "run" = some (.str s)) :
    s = runPath c name (Workflow.isSubKey key) tool := by
  obtain ⟨d₁, hd₁, h⟩ := of_bind h
  have hrun : under? (d₁.step i) "run" = some (.str s) →
      s = runPath c name (Workflow.isSubKey key) tool := by
    obtain ⟨hi, fs, rfl, -, hpath, -⟩ := setRun_spec hd₁
    rw [Draft.step_setStep _ hi]
    exact hpath s
  split at h
  · obtain ⟨fs, calls, rfl, -, -, hrest⟩ := tagStep_spec h
    have hi := Draft.lt_length_of_under? (Option.isSome_iff_exists.mpr ⟨_, hs⟩)
    rw [Draft.step_setStep _ (by simpa [Draft.setStep] using hi), under?_map,
      hrest "run" (by decide)] at hs
    exact hrun hs
  · rw [← pure_eq_ok.mp h] at hs
    exact hrun hs

theorem StepRun.run_text (run : StepRun sub c i key d e)
    (hs : under? (e.step i) "run" = some (.str s)) :
    s = runPath c run.site.name (Workflow.isSubKey key) run.tool := by
  rw [run.prepared_field (by decide)] at hs
  exact prepare_run run.preparing hs

end Run

def toolAt (yml : Doc) (i : Nat) : Option StepId :=
  (opened yml).bind fun o =>
    if Workflow.isSubKey (o.keys.getD i "") then none
    else (noteAt o.notes i (o.keys.getD i "")).toOption.map fun note =>
      ⟨stem (o.keys.getD i ""), note.2⟩

/-- What the step at a place of a workflow runs: a workflow, compiled by itself, or the tool that is
known under its name. -/
inductive RunsStep (set : Setting) (yml : Doc) (i : Nat) (p : PartTree) : Prop
  | inner {v : String × Doc} {n : Nat} {u : Task} {s : Compiled} (inner : innerAt yml i = some v)
      (running : (compileAt set n u).Yields s) (task : (u.path, u.yml) = v) (tree : p = s.tree)
  | tool {id : StepId} {tool : Tool} (named : toolAt yml i = some id)
      (known : set.tools.get? id = some tool) (cwl : p.part.cwl = tool.cwl) (leaf : p.subs = [])

section Compiled

variable {set : Setting} {n : Nat} {t : Task} {r : Compiled}

theorem OnceRun.name_eq (run : OnceRun sub set t r) : r.tree.part.name = stem t.path := by
  obtain ⟨done, -, h⟩ := of_bind run.concluding
  obtain ⟨job, -, h⟩ := of_map h
  rw [← h, PartTree.part]

theorem Faithful.name_eq (h : Faithful set n t r) : r.tree.part.name = stem t.path := by
  induction h using Faithful.induction with
  | step _ run => exact run.name_eq

theorem StepIn.runs {run : OnceRun (compileAt set n) set t r} {i : Nat} {d e : Draft}
    (here : StepIn run i d e) (hun : Unaltered r.tree t.flow)
    (hknown : ∀ id ∈ toolIds t.yml, set.tools.has id) :
    ∃ p, r.tree.subs[i]? = some p ∧ RunsStep set t.yml i p ∧ p.lastName = here.head.site.name ∧
      p.part.name = stem here.head.tool.runPath := by
  have hlast : ∀ {p}, r.tree.subs[i]? = some p → p.lastName = here.head.site.name := fun hp =>
    lastName_eq (here.getLast?_namespaces (fun _ _ => compileAt_namespaces) hp)
  rcases here.head.brought_cases with ⟨⟨inner⟩⟩ | ⟨⟨tool⟩⟩
  · obtain ⟨hat, hsubs⟩ := here.inner_spec inner
    refine ⟨inner.result.tree, hsubs, .inner hat inner.running rfl rfl, hlast hsubs, ?_⟩
    have hkey : name here.key ≠ "" := name_ne_empty inner.isSub (by decide) (by decide)
    rw [(here.inner_faithful hun inner).name_eq, inner.tool]
    exact (stem_append_cwl (slash_not_mem_stem _) (stem_ne_empty hkey)).symm
  · have hfound := tool.registered (hknown _ (here.mem_toolIds tool.isTool))
    have hsubs : r.tree.subs[i]? = some (.node tool.part []) := here.subs_eq (by rw [tool.brought])
    refine ⟨_, hsubs, .tool ?_ hfound tool.cwl rfl, hlast hsubs, ?_⟩
    · have hget : run.start.keys.getD i "" = here.key := by
        rw [← run.keysIn_eq]; exact here.keys_getD
      rw [toolAt, run.opened, Option.bind_some, hget, tool.isTool, here.noted]
      rfl
    · rw [PartTree.part, tool.part_eq]

theorem OnceRun.links (run : OnceRun (compileAt set n) set t r) (hrel : set.relativeRunPath)
    (hun : Unaltered r.tree t.flow) (hknown : ∀ id ∈ toolIds t.yml, set.tools.has id)
    (hstep : r.tree.steps[i]? = some step) (hs : under? step "run" = some (.str s)) :
    ∃ p, r.tree.subs[i]? = some p ∧ RunsStep set t.yml i p ∧
      s = p.lastName ++ "/" ++ (p.part.name ++ ".cwl") := by
  have hi : i < run.start.keys.length := by
    obtain ⟨concl⟩ := run.concluded
    rw [concl.tree_steps] at hstep
    have hlen := length_mapM concl.naming
    rw [length_range] at hlen
    exact hlen ▸ (List.getElem?_eq_some_iff.mp hstep).1
  obtain ⟨place⟩ := run.placeAt hi
  obtain ⟨es, fs, hes, hfs, hfields⟩ := run.step_fields hi
  rw [hstep] at hfs
  cases hfs
  have hrun : under? (place.after.step i) "run" = some (.str s) := by
    rw [← place.later.steps i (Nat.le_refl i), hes,
      under?_map, ← hfields "run" (by decide), ← under?_map, hs]
  obtain ⟨p, hp, hruns, hlast, hname⟩ := place.here.runs hun hknown
  refine ⟨p, hp, hruns, ?_⟩
  rw [place.here.head.run_text hrun, runPath, show run.scope.setting.relativeRunPath from hrel,
    hlast, hname]
  rfl

theorem Faithful.filed {K : String → Prop} (h : Faithful set n t r)
    (hknown : ∀ is w, subAt t.flow is = some w → ∀ id ∈ toolIds w.2, set.tools.has id)
    (hK : ∀ is w, subAt t.flow is = some w → ∀ key ∈ keysIn w.2, K key) :
    r.tree.Everywhere (PartTree.Filed K) := by
  intro is p hp
  rcases h.node hp with hleaf | ⟨m, u, s, hs, rfl, hu⟩
  · refine ⟨"", fun _ => "", by simp, fun j v hv => ?_⟩
    rw [hleaf] at hv
    cases hv
  · obtain ⟨run⟩ := hs.once
    have hstem : '/' ∉ run.scope.stem.toList := by
      rw [show run.scope.stem = stem u.path from rfl]
      exact slash_not_mem_stem u.path
    have hids := hknown is u.flow hu
    refine ⟨run.scope.stem, fun i => run.scope.keys.getD i "", hstem, fun i p hp => ?_⟩
    have hi := run.lt_of_sub hp
    obtain ⟨place⟩ := run.placeAt hi
    obtain ⟨q, hq, -, hlast, hname⟩ := place.here.runs hs.kept hids
    rw [hp] at hq
    cases hq
    refine ⟨hlast.trans (place.here.site_name hids), hK is _ hu _ ?_, ?_⟩
    · rw [run.keysIn_eq]
      exact mem_of_getElem? (getElem?_getD hi "")
    · rw [hname]
      exact slash_not_mem_stem _

end Compiled

variable {runs : Run.Runs} {s : String} {i : Nat} {q : PartTree}

theorem nameStep_run (h : Run.nameStep runs y = .ok z)
    (hs : under? z.1 "run" = some (.str s)) : under? y "run" = some (.str s) := by
  unfold Run.nameStep at h
  split at h
  · rename_i es
    obtain ⟨keys, -, rfl⟩ := of_map h
    dsimp only at hs
    split at hs
    · split at hs
      · exact hs
      · rw [under?_map, get?_put_self] at hs
        cases hs
    · exact hs
  · cases h
    exact hs

theorem normalCwl_run (h : Run.normalCwl runs cwl = .ok doc)
    (hcls : under? cwl "class" = some (.str "Workflow"))
    (hxs : under? doc "steps" = some (.list xs)) (hx : xs[i]? = some x)
    (hs : under? x "run" = some (.str s)) :
    ∃ ys y, under? cwl "steps" = some (.list ys) ∧ ys[i]? = some y ∧
      under? y "run" = some (.str s) := by
  obtain ⟨es, rfl⟩ : ∃ es, cwl = .map es := by
    cases cwl <;> first | exact ⟨_, rfl⟩ | cases hcls
  obtain ⟨es', hes, h⟩ := of_bind h
  cases hes
  rw [under?_map] at hcls
  rw [hcls] at h
  obtain ⟨fs, hfs, rfl⟩ := of_map h
  rw [under?_map] at hxs
  unfold Run.nameWorkflow at hfs
  split at hfs
  · rename_i ys hys
    obtain ⟨named, hnamed, hfs⟩ := of_bind hfs
    have hsteps : xs = named.map (·.1) := by
      have hget : get? fs "steps" = some (.list (named.map (·.1))) := by
        rw [← pure_eq_ok.mp hfs, Run.onKey]
        split
        · rw [get?_put_ne (by decide), get?_put_self]
        · rw [get?_put_self]
      rw [hget] at hxs
      cases hxs
      rfl
    rw [hsteps, getElem?_map] at hx
    obtain ⟨named', hnamed', rfl⟩ := Option.map_eq_some_iff.mp hx
    obtain ⟨y, hy, hstep⟩ := getElem?_mapM hnamed hnamed'
    refine ⟨ys, y, ?_, hy, nameStep_run hstep hs⟩
    rw [under?_map]
    unfold Run.atKey getD at hys
    cases hget : get? es "steps" with
    | none =>
      rw [hget] at hys
      cases hys
    | some v =>
      rw [hget, Option.getD_some] at hys
      rw [hys]
  · rename_i hno
    rw [← pure_eq_ok.mp hfs] at hxs
    exact absurd (by rw [Run.atKey, getD, hxs, Option.getD_some]) (hno xs)

theorem PartTree.runText_step (hcls : under? q.part.cwl "class" = some (.str "Workflow"))
    (h : q.runText i = some s) : ∃ y, q.steps[i]? = some y ∧ under? y "run" = some (.str s) := by
  obtain ⟨doc, hdoc, h⟩ := Option.bind_eq_some_iff.mp h
  obtain ⟨xs, hxs, h⟩ := Option.bind_eq_some_iff.mp h
  obtain ⟨x, hx, h⟩ := Option.bind_eq_some_iff.mp h
  obtain ⟨v, hv, h⟩ := Option.bind_eq_some_iff.mp h
  obtain ⟨steps, hsteps, hlist⟩ := Option.bind_eq_some_iff.mp hxs
  have hdoc : Run.normalCwl (Run.runsOf q) q.part.cwl = .ok doc := by
    cases hcwl : Run.normalCwl (Run.runsOf q) q.part.cwl with
    | error e =>
      rw [hcwl] at hdoc
      cases hdoc
    | ok d =>
      rw [hcwl] at hdoc
      exact congrArg Except.ok (Option.some.inj hdoc)
  have hlist : steps = .list xs := by
    cases steps <;> simp_all [Doc.list?]
  have hstr : v = .str s := by
    cases v <;> simp_all [Doc.str?]
  rw [hlist] at hsteps
  rw [hstr] at hv
  obtain ⟨ys, y, hys, hy, hrun⟩ := normalCwl_run hdoc hcls hsteps hx hv
  refine ⟨y, ?_, hrun⟩
  rw [PartTree.steps, hys]
  exact hy

def Holds (fs : List (String × String)) (f : String) (q : PartTree) : Prop :=
  ∃ text, q.cwlText = .ok text ∧ (f, text) ∈ fs

theorem PartTree.cwlFile_step {K : String → Prop} {s p : PartTree} {dir : String} {is : List Nat}
    (hq : s.at? is = some q) (hp : q.subs[i]? = some p) (hname : '/' ∉ q.part.name.toList)
    (hlies : Lies K p) :
    join (parent (s.cwlFile dir is q)) (p.lastName ++ "/" ++ (p.part.name ++ ".cwl")) =
      s.cwlFile dir (is ++ [i]) p := by
  have hway : ∀ x ∈ (s.way is).flatMap Path.parts, IsPart x := by
    intro x hx
    obtain ⟨name, -, hx⟩ := mem_flatMap.mp hx
    exact isPart_of_mem hx
  have hlast : s.way (is ++ [i]) = s.way is ++ [p.lastName] := by
    rw [way_append hq, way_cons hp, way]
  rw [cwlFile, parent_below hway (isPart_cwl hname), String.append_assoc,
    join_eq (hlies.relative _), below_below hway, ← String.append_assoc, parts_append,
    parts_of_isPart (isPart_cwl hlies.name), cwlFile, hlast]
  simp

/-- The files of a compiled workflow link up. No two of them lie at one path, nor at one place on
disk when no key leads up. Where a step of a compiled workflow names the document that it runs, seen
from the directory of the workflow, there is a file that holds what the source says the step runs.
-/
theorem compile_linked {set : Setting} {path dir : String} {yml : Doc} {graph : Graph}
    {r : Compiled} {more : Entries} {t u : Transcript} (hrel : set.relativeRunPath = true)
    (hknown : ∀ w ∈ within path yml, ∀ id ∈ toolIds w.2, set.tools.has id = true)
    (h : (compile set (.root path yml graph)).Yields r) (hun : Unaltered r.tree (path, yml))
    (hwrite : (r.tree.write true more dir).outcome t = (.ok (), u)) :
    ∃ fs, u.written = fs.reverse ++ t.written ∧ (fs.map (·.1)).Nodup ∧
      ((∀ w ∈ within path yml, ∀ key ∈ keysIn w.2, ".." ∉ Path.parts key) →
        ∀ cwd, (fs.map fun f => Path.resolve cwd f.1).Nodup) ∧
      ∀ is w, subAt (path, yml) is = some w → ∃ q f, r.tree.at? is = some q ∧ Holds fs f q ∧
        ∀ i s, q.runText i = some s →
          ∃ p, q.subs[i]? = some p ∧ RunsStep set w.2 i p ∧
          Holds fs (Path.join (Path.parent f) s) p := by
  obtain ⟨s, hs, rfl⟩ := h.of_map
  have hs : Faithful set _ _ s := ⟨hs, hun⟩
  have hknown : ∀ is w, subAt (path, yml) is = some w →
      ∀ id ∈ toolIds w.2, set.tools.has id = true :=
    fun is w hw => hknown w (mem_within_subAt hw)
  have hname : '/' ∉ s.tree.part.name.toList := by
    rw [hs.name_eq]
    exact Path.slash_not_mem_stem _
  have hfiled : s.tree.Everywhere (PartTree.Filed fun _ => True) :=
    hs.filed hknown fun _ _ _ _ _ => trivial
  obtain ⟨fs, hfs, hstored⟩ := PartTree.write_stored _ hname hfiled hwrite
  refine ⟨fs, hfs, hstored.apart hname hfiled, fun hup => ?_, fun is w hw => ?_⟩
  · apply hstored.apart_resolved hname
    exact hs.filed hknown fun is w hw key hkey => hup w (mem_within_subAt hw) key hkey
  · obtain ⟨m, v, q, hv, ⟨run⟩, rfl, hat⟩ := hs.atPath hw
    refine ⟨q.tree, s.tree.cwlFile dir is q.tree, hat, hstored.texts is _ hat, ?_⟩
    intro i text htext
    obtain ⟨y, hstep, htext⟩ := PartTree.runText_step run.cls htext
    obtain ⟨p, hp, hruns, rfl⟩ := run.links hrel hv.kept (hknown is (v.path, v.yml) hw) hstep htext
    have hslash : '/' ∉ q.tree.part.name.toList := by
      rw [run.name_eq]
      exact Path.slash_not_mem_stem _
    have hpat : s.tree.at? (is ++ [i]) = some p := by
      rw [PartTree.at?_append hat, PartTree.at?, hp]
      rfl
    refine ⟨p, hp, hruns, ?_⟩
    rw [PartTree.cwlFile_step hat hp hslash ((hfiled is _ hat).sub (List.mem_of_getElem? hp))]
    exact hstored.texts _ p hpat

namespace Sample

def linkingTool : StepId × Tool :=
  (⟨"w", globalSpace⟩,
    ⟨"w.cwl", Doc.obj [("class", .str "Workflow"), ("inputs", .emptyMap), ("outputs", .emptyMap),
    ("steps", .list [step "s" [("in", .emptyMap), ("out", .list []), ("run", .str "other.cwl")]])]⟩)

def stored (r : Compiled) : Result Unit × Transcript := (r.tree.write true [] "out").outcome {}

variable {r : Compiled}

theorem stored_eq (h : (stored r).1.toOption.isSome) :
    (r.tree.write true [] "out").outcome {} = (.ok (), (stored r).2) := by
  obtain ⟨_, hx⟩ := Option.isSome_iff_exists.mp h
  exact Prod.ext (toOption_eq_some.mp hx) rfl

theorem mem_stored {fs : List (String × String)} {x : String × String}
    (h : (stored r).2.written = fs.reverse ++ []) (hx : x ∈ fs) : x ∈ (stored r).2.written := by
  rw [h]
  exact mem_append_left _ (mem_reverse.mpr hx)

end Sample

open Sample in
theorem compile_linked_referring :
    ∃ r u, (compile (setting [echoTool, catTool])
        (.root "wf.wic" referring (Graph.empty "" ""))).Yields r ∧
      (r.tree.write true [] "out").outcome {} = (.ok (), u) ∧
      (u.written.map fun f => Path.resolve "/" f.1).Nodup ∧
      ∃ q p, r.tree.at? [1] = some q ∧ q.subs[1]? = some p ∧
      RunsStep (setting [echoTool, catTool])
        (workflow [step "cat" [("in", Doc.obj [("f", reference "a")])], step "cat" []]) 1 p ∧
      ∃ f, Holds u.written f q ∧
      Holds u.written (Path.join (Path.parent f) "sub__step__2__cat/cat.cwl") p := by
  have hsome : (compiled (setting [echoTool, catTool]) "wf.wic" referring).any (fun r =>
      (stored r).1.toOption.isSome &&
        (r.tree.at? [1]).any (fun q => q.runText 1 == some "sub__step__2__cat/cat.cwl")) =
        true := by decide +kernel
  obtain ⟨r, hr, hall⟩ := Logged.yields_of_any hsome
  obtain ⟨hwritten, hq⟩ := (Bool.and_eq_true _ _).mp hall
  obtain ⟨q, hq, hrun⟩ := Option.any_eq_true _ _ |>.mp hq
  obtain ⟨fs, hfs, -, hnodup, hlinks⟩ := compile_linked rfl (by decide +kernel) hr
    (compile_unaltered rfl hr) (stored_eq hwritten)
  have hmem : ∀ {f q}, Holds fs f q → Holds (stored r).2.written f q :=
    fun ⟨text, htext, hx⟩ => ⟨text, htext, mem_stored hfs hx⟩
  obtain ⟨q', f, hq', hf, hsteps⟩ := hlinks [1] ("sub.wic", _) rfl
  rw [hq] at hq'
  cases hq'
  obtain ⟨p, hp, hruns, hlink⟩ := hsteps 1 _ (beq_iff_eq.mp hrun)
  refine ⟨r, (stored r).2, hr, stored_eq hwritten, ?_, q, p, hq, hp, hruns, f, hmem hf, hmem hlink⟩
  rw [hfs, List.append_nil, List.map_reverse, List.nodup_reverse]
  exact hnodup (by decide +kernel) "/"

open Sample in
/-- A tool that is a workflow is written as it is, without the documents that it runs. -/
theorem not_compile_linked :
    ¬ ∀ (set : Setting) (path dir : String) (yml : Doc) (graph : Graph)
      (r : Compiled) (more : Entries) (t u : Transcript), set.relativeRunPath = true →
      (∀ w ∈ within path yml, ∀ id ∈ toolIds w.2, set.tools.has id = true) →
      (compile set (.root path yml graph)).Yields r → Unaltered r.tree (path, yml) →
      (r.tree.write true more dir).outcome t = (.ok (), u) →
      ∃ fs, u.written = fs.reverse ++ t.written ∧ ∀ is q, r.tree.at? is = some q →
      ∃ f, Holds fs f q ∧ ∀ i s, q.runText i = some s →
      ∃ p, Holds fs (Path.join (Path.parent f) s) p := by
  intro h
  have hsome : (compiled (setting [linkingTool]) "wf.wic" (workflow [step "w" []])).any (fun r =>
      (stored r).1.toOption.isSome &&
        (r.tree.at? [0]).any (fun q => q.runText 0 == some "other.cwl") &&
        (stored r).2.written.all (fun f => (stored r).2.written.all fun g =>
          g.1 != Path.join (Path.parent f.1) "other.cwl")) = true := by decide +kernel
  obtain ⟨r, hr, hall⟩ := Logged.yields_of_any hsome
  obtain ⟨hall, hnone⟩ := (Bool.and_eq_true _ _).mp hall
  obtain ⟨hwritten, hq⟩ := (Bool.and_eq_true _ _).mp hall
  obtain ⟨q, hq, hrun⟩ := Option.any_eq_true _ _ |>.mp hq
  obtain ⟨fs, hfs, hlinks⟩ := h _ _ _ _ _ r _ _ _ rfl (by decide +kernel) hr
    (compile_unaltered rfl hr) (stored_eq hwritten)
  obtain ⟨f, ⟨text, -, hf⟩, hsteps⟩ := hlinks [0] q hq
  obtain ⟨p, text', -, hlink⟩ := hsteps 0 _ (beq_iff_eq.mp hrun)
  have hne :=
    List.all_eq_true.mp (List.all_eq_true.mp hnone _ (mem_stored hfs hf)) _ (mem_stored hfs hlink)
  simp at hne

end Compile

end WorkflowInference
