import Mathlib.Data.List.Find
import WorkflowInference.Proofs.Compile.Dataflow
import WorkflowInference.Proofs.Path
import WorkflowInference.Proofs.Types

/-!
What fits an input, and the tools that a workflow runs in the end. Without rules, scattering and
naming conventions, a search among the earlier steps takes the first output that fits, from the last
one backwards. A workflow that leaves all to inference lists the steps that run tools in the order
in which they stand, those inside of workflows at the places of these.
-/
namespace WorkflowInference

open Entries Result
open List hiding getD

section Fits

variable {es outs : Entries} {required : Bool} {t u : Doc} {arg : String}

namespace Text

theorem toList_replace_question (s : String) :
    (replace s "?" "").toList = s.toList.filter (· != '?') := by
  rw [toList_replace_char (c := '?') rfl]
  induction s.toList with
  | nil => rfl
  | cons x xs ih => by_cases hx : x = '?' <;> simp_all

end Text

namespace Param

def stripped (required : Bool) : Doc → Doc
  | .str s => if required then .str (Text.replace s "?" "") else .str s
  | t => t

theorem signature_spec (h : signature param required = .ok sig) :
    ∃ es t u fs, param = .map es ∧ get? es "type" = some t ∧
      canonical (stripped required t) = .ok u ∧
      sig = .map fs ∧ get? fs "type" = some u ∧ get? fs "format" = get? es "format" := by
  obtain ⟨t, ht, u, hu, h⟩ := of_bind₂ h
  obtain ⟨es, hes, rfl⟩ := of_map h
  cases Compile.entries_eq_ok.mp hes
  rw [Compile.field_eq_ok, Compile.under?_map] at ht
  refine ⟨es, t, u, _, rfl, ht, ?_, rfl, rfl, ?_⟩
  · cases t <;> exact hu
  · cases hf : get? es "format" <;> cases hl : get? es "label" <;> cases hd : get? es "doc" <;>
      simp [get?, hf, hl, hd]

def remarks (es : Entries) : List (String × Doc) :=
  ["format", "label", "doc"].filterMap fun k => (get? es k).map fun v => (k, v)

theorem signature_eq (ht : get? es "type" = some t) : signature (.map es) required =
    (do return Doc.obj (("type", ← canonical (stripped required t)) :: remarks es)) := by
  have hfield : (Doc.map es).field "type" = .ok t := Compile.field_eq_ok.mpr ht
  unfold signature
  rw [hfield]
  cases t <;> rfl

theorem signature_map (ht : get? es "type" = some t)
    (hu : canonical (stripped required t) = .ok u) :
    ∃ fs, signature (.map es) required = .ok (.map fs) ∧ get? fs "type" = some u := by
  rw [signature_eq ht, hu]
  exact ⟨_, rfl, rfl⟩

theorem stripped_of_canonical (h : canonical (stripped true t) = .ok u) : stripped true u = u := by
  cases u with
  | str s =>
    -- only a name comes out as a name, and it has lost its question marks
    cases t with
    | str r =>
      simp only [stripped, if_true, canonical, Except.ok.injEq] at h
      generalize hcs : (Text.replace r "?" "").toList.reverse = cs at h
      have hchars : s.toList = (Text.replace r "?" "").toList := by
        unfold canonicalName at h
        split at h
        · cases h
        · cases h
        · rw [← Doc.str.inj h, String.toList_ofList, ← hcs, reverse_reverse]
      have hnone : (Text.replace s "?" "").toList = s.toList := by
        rw [Text.toList_replace_question, hchars, Text.toList_replace_question, filter_filter]
        simp
      rw [stripped, if_pos rfl, String.toList_inj.mp hnone]
    | map es => cases Canonical.of_eq_ok (t := .map es) h
    | _ => cases h
  | _ => rfl

end Param

namespace Compile

def wantedIn (param : Doc) : Result Wanted := do
  let sig ← Param.signature param true
  let type ← sig.field "type"
  let formats ← param.fieldD "format" (.list [])
  return ⟨type, formats⟩

theorem wantedIn_map (ht : get? es "type" = some t)
    (hu : Param.canonical (Param.stripped true t) = .ok u) :
    wantedIn (.map es) = .ok ⟨u, getD es "format" (.list [])⟩ := by
  obtain ⟨fs, hfs, htype⟩ := Param.signature_map ht hu
  have hfield : (Doc.map fs).field "type" = .ok u := field_eq_ok.mpr htype
  rw [wantedIn, hfs]
  change (Doc.field (.map fs) "type" >>= _) = _
  rw [hfield]
  rfl

theorem wantedOf_spec (h : wantedOf step tool a = .ok (sig, w))
    (hscatter : under? step "scatter" = none) :
    ∃ ins param, under? tool "inputs" = some ins ∧ under? ins a = some param ∧
      wantedIn param = .ok w ∧
      wantedIn (.map sig) = .ok w := by
  obtain ⟨ins, hins, param, hparam, s, hs, h⟩ := of_bind₃ h
  obtain ⟨scatter, hsc, scattered, hscd, type, htype, h⟩ := of_bind₃ h
  obtain ⟨formats, hformats, fs, hfs, h⟩ := of_bind₂ h
  have hno : scattered = false := by
    rw [fieldD_eq_ok hsc, hscatter] at hscd
    exact (Except.ok.inj hscd).symm
  subst hno
  obtain ⟨es, t, u, gs, rfl, ht, hu, rfl, hgtype, hgformat⟩ := Param.signature_spec hs
  cases hfs
  rw [field_eq_ok, under?_map, hgtype] at htype
  cases htype
  cases fieldD_eq_ok hformats
  obtain ⟨rfl, rfl⟩ := Prod.mk.inj (pure_eq_ok.mp h)
  refine ⟨ins, _, field_eq_ok.mp hins, field_eq_ok.mp hparam, wantedIn_map ht hu, ?_⟩
  have hkept : Param.canonical (Param.stripped true type) = .ok type := by
    rw [Param.stripped_of_canonical hu]
    exact Param.canonical_canonical hu
  change wantedIn (.map (put fs "type" type)) = .ok ⟨type, _⟩
  rw [wantedIn_map get?_put_self hkept, getD, get?_put_ne (by decide), hgformat]
  rfl

def Wanted.takes (w : Wanted) (out : Doc) : Bool :=
  ((do
    let sig ← Param.signature out false
    let type ← sig.field "type"
    let format ← out.fieldD "format" (.str "")
    w.fits type format : Result Bool).toOption).getD false

theorem Wanted.takes_map (w : Wanted) (ht : get? es "type" = some t)
    (hu : Param.canonical t = .ok u) :
    w.takes (.map es) = ((w.fits u (getD es "format" (.str ""))).toOption).getD false := by
  have hstripped : Param.canonical (Param.stripped false t) = .ok u := by
    cases t <;> exact hu
  obtain ⟨fs, hfs, htype⟩ := Param.signature_map ht hstripped
  have hfield : (Doc.map fs).field "type" = .ok u := field_eq_ok.mpr htype
  rw [takes, hfs]
  change (Except.toOption (Doc.field (.map fs) "type" >>= _)).getD false = _
  rw [hfield]
  rfl

/-- An output that is brought up has the type of the one that it comes from, spelt out, and its
format. -/
theorem outputOf_type (hsig : Param.signature out false = .ok sig)
    (h : outputOf step b (k, sig) = .ok r) : ∃ es t u gs, out = .map es ∧ get? es "type" = some t ∧
      Param.canonical t = .ok u ∧ r.2 = .map gs ∧ get? gs "type" = some (promote b u) ∧
      get? gs "format" = get? es "format" := by
  obtain ⟨es, t, u, fs, rfl, ht, hu, rfl, htype, hformat⟩ := Param.signature_spec hsig
  have hu : Param.canonical t = .ok u := by cases t <;> exact hu
  obtain ⟨gs, hgs, v, hv, type, hcan, h⟩ := of_bind₃ h
  cases hgs
  rw [field_eq_ok, under?_map, htype] at hv
  cases hv
  rw [Param.canonical_canonical hu] at hcan
  cases hcan
  rw [← pure_eq_ok.mp h]
  refine ⟨es, t, u, _, rfl, ht, hu, rfl, ?_, ?_⟩
  · rw [get?_put_ne (by decide), get?_put_self, promote]
  · rw [get?_put_ne (by decide), get?_put_ne (by decide), hformat]

theorem Wanted.takes_outputOf (w : Wanted) (hsig : Param.signature out false = .ok sig)
    (h : outputOf step false (k, sig) = .ok r) : w.takes r.2 = w.takes out := by
  obtain ⟨es, t, u, gs, rfl, ht, hu, hr, htype, hformat⟩ := outputOf_type hsig h
  rw [hr, w.takes_map htype (Param.canonical_canonical hu), w.takes_map ht hu, getD, getD, hformat]
  rfl

section Search

variable {w : Wanted}

theorem Wanted.admits_false (w : Wanted) (out : Doc) : w.admits false out = w.takes out := by
  simp only [admits, takes, offeredType, bind_assoc, pure_bind]
  rfl

structure Quiet (c : Scope) (d : Draft) (j : Nat) (outs : Entries) : Prop where
  tool : ∃ tool, d.tools[j]? = some tool ∧ under? tool.cwl "outputs" = some (.map outs)
  note : ∃ note, heldNote d.notes j (c.keys.getD j "") = .ok note ∧
    ∀ parent, rulesOf note parent = .ok (.map [])
  scatter : (d.step j).holds "scatter" = .ok false
  logs : ∀ e ∈ outs, isLog e.1.text = false

def lastFit (w : Wanted) (outs : Nat → Entries) : Nat → Option (Nat × String)
  | 0 => none
  | j + 1 =>
    match (outs j).reverse.find? fun e => w.takes e.2 with
    | some e => some (j, e.1.text)
    | none => lastFit w outs j

namespace Quiet

variable {c : Scope} {d : Draft} {j : Nat}

variable (h : Quiet c d j outs)

include h

theorem outputsAt : outputsAt d j = outs := by
  obtain ⟨tool, htool, houts⟩ := h.tool
  rw [Compile.outputsAt, htool, Option.bind_some, houts]
  rfl

theorem rulesAt : rulesAt c d j = [] := by
  obtain ⟨note, hnote, hrules⟩ := h.note
  exact rulesAt_eq hnote (hrules _)

theorem breaksBy (out : Doc × Doc) : breaksBy (Compile.rulesAt c d j) out = false := by
  rw [h.rulesAt, Compile.breaksBy, Bool.eq_false_iff, Ne, Doc.beq_str_iff]
  simp [getD]

theorem visitedAt : visitedAt c d j = outs.reverse := by
  rw [Compile.visitedAt, h.outputsAt]
  exact visited_eq_self _ _ fun out _ => h.breaksBy out

end Quiet

variable {c : Scope} {d : Draft} {n : Nat}

theorem mostRecent_quiet {outs : Nat → Entries} (hq : ∀ j < n, Quiet c d j (outs j)) :
    mostRecent c d w n = lastFit w outs n := by
  induction n with
  | zero => rfl
  | succ j ih =>
    have hj := hq j (Nat.lt_succ_self j)
    have hscattered : scatteredAt d j = false := by rw [scatteredAt, hj.scatter]; rfl
    have hfind : ((outs j).reverse.find? fun out => w.admits false out.2 && !isLog out.1.text) =
        (outs j).reverse.find? fun e => w.takes e.2 := by
      refine find?_congr fun e he => ?_
      rw [hj.logs e (mem_reverse.mp he), w.admits_false, Bool.not_false, Bool.and_true]
    have hany : (outs j).reverse.any (breaksBy (rulesAt c d j)) = false :=
      any_eq_false.mpr fun out _ => by rw [hj.breaksBy]; decide
    rw [mostRecent, hj.visitedAt, hscattered, hfind, hany, lastFit]
    cases (outs j).reverse.find? fun e => w.takes e.2 with
    | some e => rfl
    | none => exact ih fun k hk => hq k (Nat.lt_succ_of_lt hk)

theorem searchSteps_quiet {outs : Nat → Entries}
    (hnames : c.setting.options.namingConventions = false) (hq : ∀ j < n, Quiet c d j (outs j))
    (h : searchSteps c d w arg n = .ok (found, seen)) : found = lastFit w outs n :=
  (searchSteps_mostRecent hnames h).trans (mostRecent_quiet hq)

end Search

end Compile

end Fits

open Namespaces Option

def namesLog (s : String) : Bool := Text.contains s "log"

variable {s : String}

theorem namesLog_iff : namesLog s ↔ ['l', 'o', 'g'] <:+: s.toList := Text.contains_iff (by decide)

theorem namesLog_outName {stem key o : String} {i : Nat} (hstem : namesLog stem = false)
    (hkey : namesLog key = false) (ho : namesLog o = false) :
    namesLog (stepName stem i key ++ sep ++ o) = false := by
  rw [← Bool.not_eq_true, namesLog_iff] at hstem hkey ho ⊢
  intro h
  have hchars : (stepName stem i key ++ sep ++ o).toList =
      stem.toList ++ (("__step__".toList ++ (Nat.toDigits 10 (i + 1) ++ ['_', '_'])) ++
        (key.toList ++ (sep.toList ++ o.toList))) := by
    simp [toList_stepName]
  rw [hchars] at h
  have hdigit : ∀ c ∈ Nat.toDigits 10 (i + 1), c ∉ ['l', 'o', 'g'] := by
    intro c hc hmem
    have hd : c.isDigit := Nat.isDigit_of_mem_toDigits (by decide) (by decide) hc
    have hword : ∀ d ∈ ['l', 'o', 'g'], d.isDigit = false := by simp
    simp [hword c hmem] at hd
  have hword : ∀ c ∈ "__step__".toList, c ∉ ['l', 'o', 'g'] := by simp
  have hsep : ∀ c ∈ sep.toList, c ∉ ['l', 'o', 'g'] := by simp [sep]
  have hend : ∀ c ∈ ['_', '_'], c ∉ ['l', 'o', 'g'] := by simp
  have hapart : ∀ c ∈ "__step__".toList ++ (Nat.toDigits 10 (i + 1) ++ ['_', '_']), c ∉
      ['l', 'o', 'g'] := by
    intro c hc
    rcases mem_append.mp hc with hc | hc
    · exact hword c hc
    · exact (mem_append.mp hc).elim (hdigit c) (hend c)
  rcases Text.infix_of_apart (by simp) hapart h with h | h
  · exact hstem h
  · rcases Text.infix_of_apart (by decide) hsep h with h | h
    · exact hkey h
    · exact ho h

theorem isLog_of_namesLog (h : namesLog s = false) : Compile.isLog s = false := by
  rw [← Bool.not_eq_true, namesLog_iff] at h
  rw [← Bool.not_eq_true, Compile.isLog, Text.contains_iff (by decide)]
  intro hlog
  have hin : ['l', 'o', 'g'] <:+: "_log_".toList := ⟨['_'], ['_'], rfl⟩
  exact h (hin.trans hlog)

namespace Compile

open Workflow (stepKey isSubKey)
open Yaml (inlineKey)

structure Leaf where
  key : String
  step : Doc

namespace Leaf

variable (set : Setting) (l : Leaf)

def tool : Doc := ((set.tools.get? ⟨Path.stem l.key, globalSpace⟩).map (·.cwl)).getD .null

def outs : Entries := ((under? (l.tool set) "outputs").bind Doc.map?).getD []

def ins : Entries :=
  if l.key = interpreterKey then (setTags set.tags set.cwd (bindings l.step) [] "" []).1
    else bindings l.step

end Leaf

/-- A step that runs a known tool and leaves what it does not give a value to inference. Its key and
the outputs of the tool name no logs. -/
structure ToolStep (set : Setting) (l : Leaf) : Prop where
  key : stepKey l.step = .str l.key
  isTool : isSubKey l.key = false
  known : set.tools.has ⟨Path.stem l.key, globalSpace⟩
  cls : under? (l.tool set) "class" = some (.str "CommandLineTool")
  outputs : under? (l.tool set) "outputs" = some (.map (l.outs set))
  names : ∀ e ∈ l.outs set, ∃ k, e.1 = .str k ∧ namesLog k = false
  distinct : ((l.outs set).map (·.1)).Nodup
  noLog : namesLog l.key = false
  scatter : under? l.step "scatter" = none

/-- A step that says where its inputs come from without naming steps: its key is not taken for the
one of a step that starts a compilation of its own, and it provides values only where other texts
would be left as they are. -/
structure Leaf.Clear (set : Setting) (l : Leaf) : Prop where
  interpreter : Text.endsWith l.key interpreterKey → l.key = interpreterKey
  inline : set.options.allowRaw → ∀ a v, Entries.get? (bindings l.step) a = some v →
    isAuxiliary a ∨ (under? v inlineKey).isSome

/-- A workflow that says nothing but its steps: it has no explicit edges, no annotations, and
declares neither inputs nor outputs. -/
structure Bare (path : String) (yml : Doc) : Prop where
  plain : Plain yml
  wic : (under? yml "wic").getD (.map []) = .map [] ∨
    under? yml "wic" = some (.map [(.str "steps", .map [])])
  inputs : (under? yml "inputs").getD (.map []) = .map []
  outputs : (under? yml "outputs").getD (.map []) = .map []
  noLog : namesLog (Path.stem path) = false

mutual

/-- The steps of a workflow that run tools, with those inside of its workflows. -/
inductive Lists (set : Setting) : String → Doc → List Leaf → Prop
  | workflow {path : String} {yml : Doc} {steps : List Doc} {lss : List (List Leaf)}
      (bare : Bare path yml) (steps_eq : under? yml "steps" = some (.list steps))
      (each : List.Forall₂ (ListsStep set) steps lss) : Lists set path yml lss.flatten

inductive ListsStep (set : Setting) : Doc → List Leaf → Prop
  | tool {l : Leaf} (step : ToolStep set l) : ListsStep set l.step [l]
  | inner {x sub : Doc} {key : String} {ls : List Leaf} (key_eq : stepKey x = .str key)
      (isSub : isSubKey key) (noLog : namesLog key = false) (sub_eq : under? x "subtree" = some sub)
      (args : under? x "parentargs" = some (.map [])) (lists : Lists set key sub ls) :
      ListsStep set x ls

end

theorem Bare.annotations_eq (h : Bare path (.map es)) :
    annotations es = .map [] ∨ annotations es = .map [(.str "steps", .map [])] := by
  have hwic := h.wic
  rw [under?_map] at hwic
  rcases hwic with hwic | hwic
  · exact .inl hwic
  · exact .inr (by rw [annotations, Entries.getD, hwic, getD_some])

theorem openWorkflow_bare (h : (openWorkflow t).Yields o) (hbare : Bare t.path t.yml)
    (hsteps : under? t.yml "steps" = some (.list steps)) :
    o.notes = .map [] ∧ o.steps = steps ∧ steps.map stepKey = o.keys.map .str := by
  obtain ⟨es, hes, h⟩ := h.of_lift
  rw [entries_eq_ok] at hes
  rw [hes] at hbare hsteps
  rw [under?_map] at hsteps
  have hno : annotations es = .map [] ∨ annotations es = .map [(.str "steps", .map [])] :=
    hbare.annotations_eq
  obtain ⟨notes, hnotes, chosen, hchosen, h⟩ := h.of_bind₂
  obtain ⟨steps', hsteps', keys, hkeys, h⟩ := h.of_bind₂
  rw [Logged.yields_lift] at hnotes hsteps' hkeys
  have hempty : notes = .map [] := by
    rw [fieldD_eq_ok hnotes]
    rcases hno with hno | hno <;> rw [hno] <;> rfl
  have hchosen : chosen.2 = .map (Entries.remove es "wic") := by
    obtain ⟨several, hseveral, hchosen⟩ := hchosen.of_lift
    have hone : several = false := by
      rcases hno with hno | hno <;> rw [hno] at hseveral <;> exact (Except.ok.inj hseveral).symm
    rw [hone] at hchosen
    obtain ⟨own, -, hchosen⟩ := hchosen.of_bind
    split at hchosen
    · rw [← Logged.yields_pure.mp hchosen]
    · exact absurd hchosen Logged.yields_throw
  rw [hchosen, field_eq_ok, under?_map, Entries.get?_remove_ne (by decide), hsteps] at hsteps'
  cases hsteps'
  obtain ⟨xs, hxs, hkeys⟩ := keysOf_spec hkeys
  cases hxs
  split at h
  · exact absurd h Logged.yields_throw
  obtain ⟨tree, -, rfl⟩ := h.of_map
  exact ⟨hempty, rfl, hkeys⟩

section Lists

variable {set : Setting} {path key : String} {yml : Doc} {ls : List Leaf} {i : Nat}

theorem Lists.bare (h : Lists set path yml ls) : Bare path yml := by
  cases h with
  | workflow bare => exact bare

theorem Lists.at_key (h : Lists set path yml ls) (ho : opened yml = some o)
    (hkey : o.keys[i]? = some key) :
    ∃ x, o.steps.getD i .null = x ∧ stepKey x = .str key ∧ ∃ ls' ⊆ ls, ListsStep set x ls' := by
  obtain ⟨hbare, hsteps, heach⟩ := h
  have hroot : Bare "" yml :=
    ⟨hbare.plain, hbare.wic, hbare.inputs, hbare.outputs, by decide +kernel⟩
  obtain ⟨-, rfl, hkeys⟩ := openWorkflow_bare (yields_of_opened ho) hroot hsteps
  have hat := congrArg (·[i]?) hkeys
  simp only [getElem?_map, hkey, map_some, map_eq_some_iff] at hat
  obtain ⟨x, hx, hstep⟩ := hat
  obtain ⟨ls', hls', hlists⟩ := forall₂_at heach hx
  refine ⟨x, getD_of_getElem? hx, hstep, ls', fun l hl => ?_, hlists⟩
  exact mem_flatten.mpr ⟨ls', mem_of_getElem? hls', hl⟩

theorem Lists.at_inner (h : Lists set path yml ls) (hv : innerAt yml i = some v) :
    ∃ ls' ⊆ ls, Lists set v.1 v.2 ls' := by
  obtain ⟨o, ho, hkey, hsub, hyml⟩ := innerAt_eq_some hv
  obtain ⟨x, hx, hstep, ls', hmem, hlists⟩ := h.at_key ho hkey
  rw [hx] at hyml
  cases hlists with
  | tool step =>
    rw [Doc.str.inj (hstep.symm.trans step.key), step.isTool] at hsub
    cases hsub
  | inner hkey' _ _ hyml' _ lists =>
    rw [Doc.str.inj (hstep.symm.trans hkey')]
    cases hyml.symm.trans hyml'
    exact ⟨_, hmem, lists⟩

theorem interpreterKey_of_sub (hsub : isSubKey key) : Text.endsWith key interpreterKey = false := by
  rw [Bool.eq_false_iff]
  intro hend
  rw [isSubKey, Text.endsWith_iff] at hsub
  rw [Text.endsWith_iff] at hend
  rcases suffix_or_suffix_of_suffix hsub hend with h | h <;> exact absurd h (by decide)

theorem Lists.interpreter (h : Lists set path yml ls) (hclear : ∀ l ∈ ls, l.Clear set)
    (hkey : key ∈ keysIn yml) (hend : Text.endsWith key interpreterKey) : key = interpreterKey := by
  unfold keysIn at hkey
  cases ho : opened yml with
  | none => simp [ho] at hkey
  | some o =>
    rw [ho, elim_some] at hkey
    obtain ⟨i, hi⟩ := getElem?_of_mem hkey
    obtain ⟨x, -, hstep, ls', hmem, hlists⟩ := h.at_key ho hi
    cases hlists with
    | tool step =>
      rw [Doc.str.inj (hstep.symm.trans step.key)] at hend ⊢
      exact (hclear _ (hmem mem_cons_self)).interpreter hend
    | inner hkey' hsub =>
      rw [Doc.str.inj (hstep.symm.trans hkey'), interpreterKey_of_sub hsub] at hend
      cases hend

/-- No workflow that leaves all to inference has names that could be taken for those of a step which
starts a compilation of its own, when the tools have none. -/
theorem Lists.unambiguous (h : Lists set path yml ls) (hclear : ∀ l ∈ ls, l.Clear set)
    (htools : ∀ e ∈ set.tools, ∀ a ∈ namesIn e.2.cwl "inputs", isPathName a = false) (n : Nat) :
    Unambiguous set (withinIn n (path, yml)) := by
  have hall : ∀ w ∈ withinIn n (path, yml), ∃ ls' ⊆ ls, Lists set w.1 w.2 ls' := by
    clear hclear
    induction n generalizing path yml ls with
    | zero => simp [withinIn]
    | succ n ih =>
      intro w hw
      rcases mem_cons.mp hw with rfl | hw
      · exact ⟨ls, fun _ hl => hl, h⟩
      · obtain ⟨v, hv, hw⟩ := mem_flatMap.mp hw
        obtain ⟨i, -, hv⟩ := mem_filterMap.mp hv
        obtain ⟨ls', hmem, hls'⟩ := h.at_inner hv
        obtain ⟨ls'', hmem', hls''⟩ := ih hls' w hw
        exact ⟨ls'', List.Subset.trans hmem' hmem, hls''⟩
  refine ⟨htools, fun w hw a ha => ?_, fun w hw key hkey hend => ?_⟩
  · obtain ⟨ls', -, hls'⟩ := hall w hw
    have hnone := hls'.bare.inputs
    unfold namesIn at ha
    cases hins : under? w.2 "inputs" with
    | none => simp [hins] at ha
    | some v =>
      rw [hins, getD_some] at hnone
      simp [hins, hnone, Doc.members, Except.toOption] at ha
  · obtain ⟨ls', hmem, hls'⟩ := hall w hw
    exact hls'.interpreter (fun l hl => hclear l (hmem hl)) hkey hend

end Lists

section Once

variable {set : Setting} {run : OnceRun sub set t r}
  {steps : List Doc} {lss : List (List Leaf)} {i : Nat} {d e : Draft}

structure Listed (run : OnceRun sub set t r) (steps : List Doc) (lss : List (List Leaf)) :
    Prop where
  bare : Bare t.path t.yml
  notes : run.start.notes = .map []
  steps_eq : run.start.steps = steps
  keys : steps.map stepKey = run.start.keys.map .str
  each : List.Forall₂ (ListsStep set) steps lss

theorem Lists.listed (h : Lists set t.path t.yml ls) (run : OnceRun sub set t r) :
    ∃ steps lss, ls = lss.flatten ∧ Listed run steps lss := by
  obtain ⟨hbare, hsteps, heach⟩ := h
  obtain ⟨hnotes, heq, hkeys⟩ := openWorkflow_bare run.opening hbare hsteps
  exact ⟨_, _, rfl, hbare, hnotes, heq, hkeys, heach⟩

theorem noteAt_empty (i : Nat) (key : String) :
    noteAt (.map []) i key = .ok (.map [], globalSpace) :=
  rfl

namespace Listed

section

variable (h : Listed run steps lss)

include h

theorem length_eq : lss.length = run.start.keys.length := by
  have hkeys := congrArg length h.keys
  rw [length_map, length_map] at hkeys
  rw [← h.each.length_eq, hkeys]

theorem at_key (hkey : run.start.keys[i]? = some key) :
    ∃ x ls, run.start.steps.getD i .null = x ∧ lss[i]? = some ls ∧ stepKey x = .str key ∧
      ListsStep set x ls := by
  have hat := congrArg (·[i]?) h.keys
  simp only [getElem?_map, hkey, map_some, map_eq_some_iff] at hat
  obtain ⟨x, hx, hstep⟩ := hat
  obtain ⟨ls, hls, hlists⟩ := forall₂_at h.each hx
  exact ⟨x, ls, by rw [h.steps_eq, getD_of_getElem? hx], hls, hstep, hlists⟩

theorem toolIds_spec {id : StepId} (hid : id ∈ toolIds t.yml) :
    set.tools.has id ∧ id.space = globalSpace := by
  rw [toolIds, run.opened, elim_some, mem_filterMap] at hid
  obtain ⟨j, hj, hid⟩ := hid
  obtain ⟨x, ls, -, -, hx, hlists⟩ := h.at_key (getElem?_getD (mem_range.mp hj) "")
  rw [h.notes, noteAt_empty] at hid
  split at hid
  · cases hid
  · rename_i htool
    cases hid
    refine ⟨?_, rfl⟩
    cases hlists with
    | tool step =>
      have heq : run.start.keys.getD j "" = _ := Doc.str.inj (hx.symm.trans step.key)
      dsimp only
      rw [heq]
      exact step.known
    | inner hkey' hsub =>
      have heq := Doc.str.inj (hx.symm.trans hkey')
      rw [heq] at htool
      exact absurd hsub htool

theorem placedRun : PlacedRun run :=
  Compile.placedRun run (.inr fun _ hid => (h.toolIds_spec hid).2) fun _ hid =>
    (h.toolIds_spec hid).1

section

variable (here : StepIn run i d e)

include here

theorem site_name :
    here.head.site.name = stepName run.scope.stem i (run.scope.keys.getD i "") :=
  here.site_name fun _ hid => (h.toolIds_spec hid).1

theorem note_eq :
    here.head.note = .map [] ∧ here.head.space = globalSpace := by
  have hnoted := here.noted
  rw [h.notes, noteAt_empty] at hnoted
  exact ⟨(Prod.mk.inj (Except.ok.inj hnoted)).1.symm, (Prod.mk.inj (Except.ok.inj hnoted)).2.symm⟩

theorem at_step :
    (∃ l, lss[i]? = some [l] ∧ ToolStep set l ∧ here.key = l.key ∧ d.step i = l.step ∧
      Nonempty (ToolRun here.head)) ∨
      ∃ ls, ∃ inner : SubRun here.head, lss[i]? = some ls ∧ namesLog here.key = false ∧
        under? (d.step i) "parentargs" = some (.map []) ∧ Lists set here.key inner.yml ls := by
  obtain ⟨x, ls, hx, hls, hkey, hlists⟩ := h.at_key here.key_eq
  rw [← here.awaits.step] at hx
  cases hlists with
  | @tool l step =>
    have heq : here.key = l.key := Doc.str.inj (hkey.symm.trans step.key)
    rcases here.head.brought_cases with ⟨⟨inner⟩⟩ | htool
    · have hsub := inner.isSub
      rw [heq, step.isTool] at hsub
      cases hsub
    · exact .inl ⟨l, hls, step, heq, hx, htool⟩
  | inner hkey' hsub hlog hyml hargs lists =>
    have heq := Doc.str.inj (hkey.symm.trans hkey')
    rw [← heq] at hsub hlog lists
    rw [← hx] at hyml hargs
    rcases here.head.brought_cases with ⟨⟨inner⟩⟩ | ⟨⟨tool⟩⟩
    · rw [inner.found] at hyml
      cases hyml
      exact .inr ⟨ls, inner, hls, hlog, hargs, lists⟩
    · have htool := tool.isTool
      rw [hsub] at htool
      cases htool

theorem tool_eq (hl : ToolStep set l)
    (hkey : here.key = l.key) (tool : ToolRun here.head) : here.head.tool.cwl = l.tool set := by
  obtain ⟨known, hknown⟩ := isSome_iff_exists.mp hl.known
  have hget : run.scope.setting.tools.get? ⟨Path.stem here.key, here.head.space⟩ = some known := by
    rw [(h.note_eq here).2, hkey]
    exact hknown
  have hfound := tool.registered (by rw [Registry.has, hget]; rfl)
  rw [hget] at hfound
  rw [Leaf.tool, hknown, some.inj hfound]
  rfl

theorem inner_step (inner : SubRun here.head)
    (hargs : under? (d.step i) "parentargs" = some (.map [])) :
    ∃ id, here.head.brought.step i = Doc.obj [("id", .str id)] := by
  obtain ⟨id, -, hstep⟩ := Result.of_bind inner.giving
  obtain ⟨args, hargs', merged, hmerged, es, hes, hstep⟩ := Result.of_bind₃ hstep
  rw [field_eq_ok, hargs] at hargs'
  cases hargs'
  have hnote : noteArgs here.head.inner = .map [] := by
    rcases noteAfter_noteArgs inner.noting with heq | hnone
    · have heq : here.head.inner = here.head.note := heq
      rw [heq, (h.note_eq here).1]
      rfl
    · exact hnone
  rw [hnote] at hmerged
  cases hmerged
  cases hes
  rw [inner.step_eq, ← Result.pure_eq_ok.mp hstep]
  exact ⟨id, rfl⟩

end

end

theorem scatter (h : Listed run steps lss) (here : StepIn run i d e) :
    under? (here.head.brought.step i) "scatter" = none := by
  rcases h.at_step here with ⟨l, -, hl, -, hstep, ⟨tool⟩⟩ | ⟨ls, inner, -, -, hargs, -⟩
  · have heq : here.head.brought.step i = d.step i := by rw [tool.brought]; rfl
    rw [heq, hstep]
    exact hl.scatter
  · obtain ⟨id, hid⟩ := h.inner_step here inner hargs
    rw [hid]
    rfl

end Listed

end Once

end Compile

end WorkflowInference
