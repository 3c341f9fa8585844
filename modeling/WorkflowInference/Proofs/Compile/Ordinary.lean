import WorkflowInference.Proofs.Compile.Nesting

/-!
Workflows without explicit edges. The only calls that are entered are those of the inputs that tell
a step which starts a compilation of its own where to find things, and these are given values. So a
name that is called is never waiting to be resolved.
-/
namespace WorkflowInference.Compile

open Entries Result Namespaces List Option Draft
open Yaml (anchorKey aliasKey)

variable {es : Entries} {yml : Doc} {p : String}

/-- A document that names no output and refers to none. -/
structure Plain (d : Doc) : Prop where
  no_alias : Doc.mentions (.str aliasKey) d = false
  no_anchor : Doc.mentions (.str anchorKey) d = false

namespace Plain

variable {d e v : Doc} {k : String}

theorem inside (h : Plain e) (hd : Doc.Inside d e) : Plain d :=
  ⟨hd.mentions h.no_alias, hd.mentions h.no_anchor⟩

theorem under? (h : Plain d) (hv : Compile.under? d k = some v) : Plain v :=
  h.inside (inside_of_under? hv)

theorem empty : Plain (.map []) := ⟨rfl, rfl⟩

theorem fieldD (h : Plain d) (hv : d.fieldD k (.map []) = .ok v) : Plain v := by
  rw [fieldD_eq_ok hv]
  cases hget : Compile.under? d k with
  | none => exact empty
  | some w => exact h.under? hget

theorem absent {k : Doc} (h : Doc.mentions k d = false) {l : String} (hk : k = .str l) :
    Compile.under? d l = none := by
  subst hk
  cases hget : Compile.under? d l with
  | none => rfl
  | some v =>
    obtain ⟨es, rfl, hmem⟩ := Compile.mem_of_under? hget
    rw [Doc.mentions, Doc.mentionsEntry_eq_false] at h
    simpa [Doc.eq] using (h _ hmem).1

theorem under?_alias (h : Plain d) : Compile.under? d aliasKey = none := absent h.no_alias rfl

theorem under?_anchor (h : Plain d) : Compile.under? d anchorKey = none := absent h.no_anchor rfl

theorem str (s : String) : Plain (.str s) := ⟨rfl, rfl⟩

theorem merge (hd : Plain d) (he : Plain e) (h : d.merge e = .ok r) : Plain r :=
  ⟨(Doc.mergeable_mentions _).merge hd.no_alias he.no_alias h,
    (Doc.mergeable_mentions _).merge hd.no_anchor he.no_anchor h⟩

theorem of_entries
    (h : ∀ e ∈ es, Doc.eq e.1 (.str aliasKey) = false ∧ Doc.eq e.1 (.str anchorKey) = false ∧
      Plain e.2) : Plain (.map es) := by
  constructor
  · rw [Doc.mentions, Doc.mentionsEntry_eq_false]
    exact fun e he => ⟨(h e he).1, (h e he).2.2.no_alias⟩
  · rw [Doc.mentions, Doc.mentionsEntry_eq_false]
    exact fun e he => ⟨(h e he).2.1, (h e he).2.2.no_anchor⟩

theorem mem (h : Plain (.map es)) {e : Doc × Doc} (he : e ∈ es) :
    Doc.eq e.1 (.str aliasKey) = false ∧ Doc.eq e.1 (.str anchorKey) = false ∧ Plain e.2 := by
  have halias := h.no_alias
  have hanchor := h.no_anchor
  rw [Doc.mentions, Doc.mentionsEntry_eq_false] at halias hanchor
  exact ⟨(halias e he).1, (hanchor e he).1, (halias e he).2, (hanchor e he).2⟩

theorem remove (h : Plain (.map es)) : Plain (.map (remove es k)) :=
  of_entries fun _ he => h.mem (mem_of_mem_remove he)

theorem put (h : Plain (.map es)) (hk : k ≠ aliasKey ∧ k ≠ anchorKey) (hv : Plain v) :
    Plain (.map (put es k v)) := by
  refine of_entries fun e he => ?_
  rcases mem_put he with he | rfl
  · exact h.mem he
  · exact ⟨by simpa [Doc.eq] using hk.1, by simpa [Doc.eq] using hk.2, hv⟩

end Plain

def PlainValues (es : Entries) : Prop := ∀ k v, get? es k = some v → Plain v

variable {s : Doc} {d e : Draft}

theorem PlainValues.put (h : PlainValues es) (hv : Plain v) : PlainValues (put es k v) := by
  intro l w hw
  rw [get?_put] at hw
  split at hw
  · cases hw
    exact hv
  · exact h l w hw

theorem Plain.bindings (h : Plain s) : PlainValues (bindings s) := by
  intro k v hv
  unfold Compile.bindings at hv
  cases hin : Compile.under? s "in" with
  | none => simp [hin] at hv
  | some ins =>
    cases ins with
    | map es =>
      rw [hin, bind_some, Doc.map?, getD_some] at hv
      exact (h.under? hin).under? hv
    | _ => simp [hin, Doc.map?] at hv

theorem Plain.anchorsOf (h : Plain s) : anchorsOf s = [] := by
  refine filterMap_eq_nil_iff.mpr fun x hx => ?_
  unfold outEntries at hx
  cases hout : Compile.under? s "out" with
  | none => simp [hout] at hx
  | some out =>
    cases out with
    | list xs =>
      rw [hout, bind_some, Doc.list?, getD_some] at hx
      have hplain : Plain x := (h.under? hout).inside (.item hx (.refl x))
      clear hx
      unfold anchorOf
      split
      · rename_i k v
        have hv : Plain v := (hplain.mem mem_cons_self).2.2
        rw [hv.under?_anchor, map_none]
      · rfl
    | _ => simp [hout, Doc.list?] at hx

theorem Plain.source (name : String) : Plain (source name) :=
  Plain.of_entries (by simp [Doc.eq, Plain.str, aliasKey, anchorKey])

structure Ordinary (d : Draft) : Prop where
  calls : ∀ k, Keyed.has d.edgeCalls k → isPathName k
  inputs : ∀ k, has d.inputs k → isPathName k → has d.given k

theorem Ordinary.congr (h : Ordinary d) (hc : e.edgeCalls = d.edgeCalls) (hi : e.inputs = d.inputs)
    (hg : e.given = d.given) : Ordinary e := by
  constructor
  · rw [hc]
    exact h.calls
  · rw [hi, hg]
    exact h.inputs

theorem Ordinary.of_core (h : Ordinary d) (hcore : e.core = d.core) : Ordinary e :=
  h.congr (calls_of_core hcore) (inputs_of_core hcore) (given_of_core hcore)

theorem Ordinary.declare (h : Ordinary d) (hc : e.edgeCalls = d.edgeCalls)
    (hi : e.inputs = put d.inputs name type) (hg : ∀ k, has d.given k → has e.given k)
    (hname : isPathName name → has e.given name) : Ordinary e := by
  refine ⟨hc ▸ h.calls, fun k hk hpath => ?_⟩
  rw [hi, has_put, Bool.or_eq_true, decide_eq_true_eq] at hk
  rcases hk with rfl | hk
  · exact hname hpath
  · exact hg k (h.inputs k hk hpath)

section Inputs

variable {c : Scope} {s : Site} {provided : List Doc} {referred : List String} {d e : Draft}
  {arg : String} {val : Doc}

theorem encoded_plain (hval : Plain val) (h : encoded arg val = .ok val') : Plain val' := by
  rcases encoded_cases h with rfl | ⟨-, text, rfl⟩
  · exact hval
  · exact Plain.of_entries (by simp [Doc.eq, Plain.str, aliasKey, anchorKey, Yaml.inlineKey])

theorem Taken.binds_plain (h : Taken c s d arg val e) (hval : Plain val) :
    ∃ v, Plain v ∧ e.steps = (d.bind s.index arg v).steps := by
  cases h with
  | raw => exact ⟨val, hval, rfl⟩
  | _ => exact ⟨_, .source _, rfl⟩

theorem Taken.ordinary (h : Taken c s d arg val e) (halias : under? val aliasKey = none)
    (hd : Ordinary d) : Ordinary e := by
  have hgive : ∀ {k l : String} {v : Doc}, k = l ∨ has d.given l → has (put d.given k v) l := by
    simp [has_put]
  cases h with
  | auxiliary => exact hd.declare rfl rfl (fun _ hk => hgive (.inr hk)) fun _ => hgive (.inl rfl)
  | unresolved _ htarget => simp [halias] at htarget
  | deferred _ htarget => simp [halias] at htarget
  | resolved _ htarget => simp [halias] at htarget
  | value => exact hd.declare rfl rfl (fun _ hk => hgive (.inr hk)) fun _ => hgive (.inl rfl)
  | raw => exact hd.congr rfl rfl rfl

/-- An input that could be taken for one of those of a step that starts a compilation of its own
has a value. -/
def Settled (c : Scope) (s : Site) (provided : List Doc) (d : Draft) (arg : String) : Prop :=
  isPathName arg ∨ arg ∈ pathInputs ∧ Text.endsWith (c.keys.getD s.index "") interpreterKey →
    provided.any (· == .str arg) ∨ has d.given (s.inName arg)

theorem Settled.mono (h : Settled c s provided d arg)
    (hgiven : ∀ k, has d.given k → has e.given k) : Settled c s provided e arg :=
  fun hpath => (h hpath).imp id (hgiven _)

theorem Settled.not_called (h : Settled c s provided d arg)
    (hcalls : ∀ k, Keyed.has calls k → isPathName k) (hprov : provided.any (· == .str arg) = false)
    (hgiven : has d.given (s.inName arg) = false) : calls.lookup arg = none := by
  by_contra hcall
  have hhas : Keyed.has calls arg := isSome_iff_ne_none.mpr hcall
  rcases h (.inl (hcalls arg hhas)) with hp | hg
  · simp [hp] at hprov
  · simp [hg] at hgiven

theorem Supplied.ordinary (h : Supplied c s provided referred d arg e)
    (harg : Settled c s provided d arg) (hd : Ordinary d) : Ordinary e := by
  cases h with
  | provided => exact hd
  | left => exact hd
  | given _ hgiven => exact hd.declare rfl rfl (fun _ => id) fun _ => hgiven
  | passedOn hprov hgiven _ hcall => simp [harg.not_called hd.calls hprov hgiven] at hcall
  | resolved hprov hgiven _ hcall => simp [harg.not_called hd.calls hprov hgiven] at hcall
  | inferred => exact hd.congr rfl rfl rfl
  | raised hprov hgiven =>
    refine hd.declare rfl rfl (fun _ => id) fun hpath => ?_
    rcases harg (isPathName_inName hpath) with hp | hg
    · simp [hp] at hprov
    · simp [hg] at hgiven

end Inputs

structure OrdinaryResult (r : Compiled) : Prop where
  calls : ∀ k, Keyed.has r.env.edgeCalls k → isPathName k
  inputs : ∀ a ∈ namesIn r.tree.part.cwl "inputs", isPathName a → has r.env.given a

theorem takeUp_given {c : Scope} {name : String} {env : Env} {d : Draft} {a : String}
    (h : has env.given a) : has (takeUp c name env d).given (name ++ sep ++ a) := by
  refine has_update.mpr (.inr (has_iff_mem.mpr ?_))
  obtain ⟨v, hv⟩ := isSome_iff_exists.mp h
  exact mem_map.mpr ⟨_, mem_map.mpr ⟨_, mem_of_get? hv, rfl⟩, rfl⟩

theorem placeKey_ne (i : Nat) (key : String) :
    Workflow.placeKey i key ≠ aliasKey ∧ Workflow.placeKey i key ≠ anchorKey := by
  have hhead : (Workflow.placeKey i key).toList.head? = some '(' := by simp [Workflow.placeKey]
  constructor <;> intro h <;> rw [h] at hhead <;> simp [aliasKey, anchorKey] at hhead

theorem noteAfter_plain {i : Nat} {key : String} {notes note : Doc} {r : Doc × Doc}
    (hyml : Plain yml) (hnotes : Plain notes) (hnote : Plain note)
    (h : (noteAfter i key yml yml notes note).Yields r) : Plain r.1 ∧ Plain r.2 := by
  rcases noteAfter_cases h with ⟨-, rfl⟩ | ⟨-, wic, es, hwic, rfl, rfl⟩
  · exact ⟨hnotes, hnote⟩
  · have hwic : Plain (Doc.obj [("wic", wic)]) := by
      refine Plain.of_entries fun e he => ?_
      rw [mem_singleton.mp he]
      refine ⟨by simp [Doc.eq, aliasKey], by simp [Doc.eq, anchorKey], ?_⟩
      exact hyml.fieldD hwic
    exact ⟨hnotes.put (placeKey_ne i key) hwic, hwic⟩

theorem givenStep_plain {step note s : Doc} (hstep : Plain step) (hnote : Plain note)
    (h : givenStep step note = .ok s) : Plain s := by
  obtain ⟨id, -, given, hgiven, h⟩ := of_bind₂ h
  obtain ⟨merged, hmerged, es, hes, h⟩ := of_bind₂ h
  rw [entries_eq_ok] at hes
  subst hes
  have hargs : Plain (noteArgs note) := by
    cases note with
    | map es => exact hnote.remove
    | _ => exact hnote
  rw [← pure_eq_ok.mp h]
  exact ((hstep.under? (field_eq_ok.mp hgiven)).merge hargs hmerged).put (by decide) (.str id)

section Tags

variable {t : TagPaths} {cwd name : String} {ins : Entries} {ns : Namespaces} {calls : EdgeSites}

theorem setTags_calls (h : Keyed.has (setTags t cwd ins ns name calls).2 k) :
    Keyed.has calls k ∨ ∃ p ∈ pathInputs, k = name ++ sep ++ p := by
  simp only [setTags, foldl_cons, foldl_nil, Keyed.has_put, Bool.or_eq_true, decide_eq_true_eq] at h
  rcases h with rfl | rfl | rfl | h
  · exact .inr ⟨_, by simp [pathInputs], rfl⟩
  · exact .inr ⟨_, by simp [pathInputs], rfl⟩
  · exact .inr ⟨_, by simp [pathInputs], rfl⟩
  · exact .inl h

theorem setTags_plain (h : PlainValues ins) : PlainValues (setTags t cwd ins ns name calls).1 := by
  have hval : ∀ s : String, Plain (Doc.obj [(Yaml.inlineKey, .str s)]) := fun s =>
    Plain.of_entries (by simp [Doc.eq, Plain.str, aliasKey, anchorKey, Yaml.inlineKey])
  exact ((h.put (hval _)).put (hval _)).put (hval _)

theorem setTags_has (hp : p ∈ pathInputs) : has (setTags t cwd ins ns name calls).1 p := by
  simp only [pathInputs, mem_cons, not_mem_nil, or_false] at hp
  simp only [setTags, foldl_cons, foldl_nil, has_put, Bool.or_eq_true, decide_eq_true_eq]
  rcases hp with rfl | rfl | rfl <;> simp

end Tags

variable {c : Scope} {i : Nat} {d e : Draft}

theorem isPathName_nameAt (hp : p ∈ pathInputs) :
    isPathName (nameAt c i interpreterKey space ++ sep ++ p) := by
  unfold nameAt
  split
  · exact isPathName_stepName c.stem i hp
  · refine isPathName_iff.mpr ⟨p, hp, ?_⟩
    simp

structure Open (i : Nat) (d : Draft) : Prop where
  bound : d.HasIn i
  values : PlainValues (bindings (d.step i))
  ordinary : Ordinary d

theorem Open.takes {s : Site} {k : Doc} (h : Open s.index d) (ht : Takes c s k d e) :
    Open s.index e := by
  obtain ⟨-, arg, val, val', f, -, hval, henc, hf, hcore, -⟩ := ht
  have hplain := encoded_plain (h.values arg val hval) henc
  obtain ⟨v, hv, hsteps⟩ := hf.binds_plain hplain
  refine ⟨(hf.rebinds hcore).keeps_in h.bound, ?_,
    (hf.ordinary hplain.under?_alias h.ordinary).of_core hcore⟩
  rw [bindings_of_bind h.bound ((steps_of_core hcore).trans hsteps)]
  exact h.values.put hv

structure OrdinaryStep {sub : Compiler} {c : Scope} {i : Nat} {key : String} {d d' : Draft}
    (run : StepRun sub c i key d d') : Prop where
  ordinary : Ordinary d
  notes : Plain d.notes
  step : Plain (d.step i)
  key_eq : c.keys.getD i "" = key
  tools : ∀ e ∈ c.setting.tools, ∀ a ∈ namesIn e.2.cwl "inputs", isPathName a = false
  interpreter : Text.endsWith key interpreterKey → key = interpreterKey
  inner : ∀ inner : SubRun run, inner.result.tree.part.yml = inner.yml ∧ OrdinaryResult inner.result

namespace OrdinaryStep

variable {run : StepRun sub c i key d d'}
  (h : OrdinaryStep run)

include h

theorem note_plain : Plain run.note := by
  obtain ⟨note, hnote, hrest⟩ := of_bind run.noted
  obtain ⟨wic, -, space, -, hrest⟩ := of_bind₂ hrest
  have heq : note = run.note := (Prod.mk.inj (pure_eq_ok.mp hrest)).1
  rw [← heq]
  exact h.notes.fieldD hnote

theorem brought_plain : Plain (run.brought.step i) ∧ Plain run.brought.notes := by
  rcases run.brought_cases with ⟨⟨inner⟩⟩ | ⟨⟨tool⟩⟩
  · have hnoting := inner.noting
    rw [(h.inner inner).1] at hnoting
    obtain ⟨hn, hi⟩ := noteAfter_plain (h.step.under? inner.found) h.notes h.note_plain hnoting
    rw [inner.step_eq, (Draft.Alongside.of_core inner.brought).notes]
    exact ⟨givenStep_plain h.step hi inner.giving, hn⟩
  · rw [tool.brought]
    exact ⟨h.step, h.notes⟩

theorem brought : Ordinary run.brought := by
  rcases run.brought_cases with ⟨⟨inner⟩⟩ | ⟨⟨tool⟩⟩
  · refine Ordinary.of_core ⟨fun k hk => ?_, fun k hk hpath => ?_⟩ inner.brought
    · rcases Keyed.has_update.mp hk with hk | hk
      · exact h.ordinary.calls k hk
      · exact (h.inner inner).2.calls k hk
    · exact has_update.mpr (.inl (h.ordinary.inputs k hk hpath))
  · rw [tool.brought]
    exact h.ordinary.congr rfl rfl rfl

theorem brought_given (ha : a ∈ run.required) (hpath : isPathName a) :
    has run.brought.given (run.site.inName a) := by
  obtain ⟨ks, hks, hmem⟩ := mem_of_requiredArgs run.requiring ha
  have hname : a ∈ namesIn run.tool.cwl "inputs" := mem_namesIn run.params_eq hks hmem
  rcases run.brought_cases with ⟨⟨inner⟩⟩ | ⟨⟨tool⟩⟩
  · rw [inner.tool] at hname
    rw [given_of_core inner.brought]
    exact takeUp_given ((h.inner inner).2.inputs a hname hpath)
  · have hmem : ∃ id, (id, run.tool) ∈ c.setting.tools := by
      rcases or_eq_some_iff.mp tool.known with h | ⟨-, h⟩
      · exact ⟨_, Registry.mem_of_get? h⟩
      · exact ⟨_, Registry.mem_of_get? h⟩
    obtain ⟨id, hid⟩ := hmem
    rw [h.tools _ hid a hname] at hpath
    cases hpath

theorem prepared : Ordinary run.prepared := by
  obtain ⟨-, fs, calls, hprepared, -⟩ := prepare_spec run.preparing
  have hinputs : run.prepared.inputs = run.brought.inputs := (congrArg inputs hprepared :)
  have hgiven : run.prepared.given = run.brought.given := (congrArg given hprepared :)
  constructor
  · intro k hk
    rcases run.prepared_tags with ⟨rfl, tags, rfl, -, hcalls⟩ | ⟨-, -, hcalls⟩
    · rw [hcalls] at hk
      rcases setTags_calls hk with hk | ⟨p, hp, rfl⟩
      · exact h.brought.calls k hk
      · exact isPathName_nameAt hp
    · rw [hcalls] at hk
      exact h.brought.calls k hk
  · rw [hinputs, hgiven]
    exact h.brought.inputs

theorem prepared_plain : PlainValues (bindings (run.prepared.step i)) := by
  rcases run.prepared_tags with ⟨-, tags, rfl, hbindings, -⟩ | ⟨-, hbindings, -⟩
  · rw [hbindings]
    exact setTags_plain h.brought_plain.1.bindings
  · rw [hbindings]
    exact h.brought_plain.1.bindings

theorem owned_plain : PlainValues (bindings (run.owned.step i)) := by
  refine run.owned_keeps (P := fun x => PlainValues (bindings (x.step i))) (fun arg _ x hin _ hx =>
    ?_) h.prepared_plain
  rw [bindings_of_bind hin rfl]
  exact hx.put (.str arg)

theorem named_plain : PlainValues (bindings (run.named.step i)) := by
  rw [run.named_bindings]
  exact h.owned_plain

theorem named : Ordinary run.named := by
  obtain ⟨-, -, hcalls, hinputs, hgiven⟩ := run.named_spec
  rw [h.brought_plain.1.anchorsOf] at hcalls
  exact h.prepared.congr hcalls hinputs hgiven

omit h in
theorem provided_of_path (hkey : key = interpreterKey) (hp : p ∈ pathInputs) :
    run.provided.any (· == .str p) := by
  rcases run.prepared_tags with ⟨-, tags, rfl, hbindings, -⟩ | ⟨hne, -⟩
  · have hhas : has (bindings (run.prepared.step i)) p := by
      rw [hbindings]
      exact setTags_has hp
    exact any_eq_true.mpr ⟨_, run.mem_provided (has_iff_mem.mp hhas), by simp⟩
  · exact absurd hkey hne

theorem settled : ∀ a ∈ run.required, Settled c run.site run.provided run.taken a := by
  rintro a ha (hpath | ⟨hmem, hend⟩)
  · have hframe :=
      run.prepared_frame.trans (run.owned_frame.trans (run.named_frame.trans run.taken_frame))
    exact .inr (hframe.given _ (h.brought_given ha hpath))
  · change Text.endsWith (c.keys.getD i "") interpreterKey at hend
    rw [h.key_eq] at hend
    exact .inl (provided_of_path (h.interpreter hend) hmem)

theorem named_open : Open i run.named := ⟨run.named_in, h.named_plain, h.named⟩

theorem taken_open : Open i run.taken :=
  run.taken_chain.keeps (P := Open i) (fun _ _ _ _ hd ht => hd.takes ht) h.named_open

theorem bound : Ordinary run.bound := by
  refine run.bound_chain.keeps (P := fun d =>
    (∀ a ∈ run.required, Settled c run.site run.provided d a) ∧
      Ordinary d) ?_ ⟨h.settled, h.taken_open.ordinary⟩ |>.2
  rintro arg harg d e ⟨hd, hord⟩ hs
  obtain ⟨-, f, hf, hcore, -⟩ := id hs
  exact ⟨fun a ha => (hd a ha).mono hs.frame.given, (hf.ordinary (hd arg harg) hord).of_core hcore⟩

theorem keeps : Ordinary d' ∧ Plain d'.notes := by
  obtain ⟨outs, sigs, -, -, s, hlast, -⟩ := run.closed_spec
  refine ⟨h.bound.congr (congrArg edgeCalls hlast :) (congrArg inputs hlast :)
    (congrArg given hlast :), ?_⟩
  rw [run.entered.1]
  exact h.brought_plain.2

end OrdinaryStep

/-- A workflow to be compiled that has no explicit edges and is not in reach of any. -/
structure OrdinaryTask (t : Task) : Prop where
  plain : Plain t.yml
  calls : ∀ k, Keyed.has t.edgeCalls k → isPathName k

theorem OrdinaryTask.root (h : Plain yml) : OrdinaryTask (.root path yml graph) :=
  ⟨h, by simp [Task.root, Keyed.has]⟩

/-- No name of an input and no key of a step can be taken for one of a step that starts a
compilation of its own. -/
structure Unambiguous (set : Setting) (ws : List (String × Doc)) : Prop where
  tools : ∀ e ∈ set.tools, ∀ a ∈ namesIn e.2.cwl "inputs", isPathName a = false
  inputs : ∀ w ∈ ws, ∀ a ∈ namesIn w.2 "inputs", isPathName a = false
  keys : ∀ w ∈ ws, ∀ key ∈ keysIn w.2, Text.endsWith key interpreterKey → key = interpreterKey

theorem Unambiguous.inner {set : Setting} {n i : Nat} {w v : String × Doc}
    (h : Unambiguous set (withinIn (n + 1) w)) (hv : innerAt w.2 i = some v) :
    Unambiguous set (withinIn n v) :=
  ⟨h.tools, fun u hu => h.inputs u (mem_withinIn_inner hv hu), fun u hu =>
    h.keys u (mem_withinIn_inner hv hu)⟩

section Once

variable {set : Setting}

theorem Plain.start (h : Plain yml) (ho : Opens yml o) :
    Plain o.notes ∧ ∀ i, Plain (o.steps.getD i .null) := by
  have hwic : Plain o.wic := by
    rw [ho.wic]
    cases hget : Compile.under? yml "wic" with
    | none => exact empty
    | some w => exact h.under? hget
  refine ⟨?_, fun i => ?_⟩
  · rw [ho.notes]
    cases hget : Compile.under? o.wic "steps" with
    | none => exact empty
    | some w => exact hwic.under? hget
  · rw [getD_eq_getElem?_getD]
    cases hget : o.steps[i]? with
    | none => exact ⟨rfl, rfl⟩
    | some s => exact h.inside (ho.listed s (mem_of_getElem? hget)).inside

theorem StepIn.ordinaryStep {n i : Nat} {run : OnceRun (compileAt set n) set t r}
    (here : StepIn run i d e) (hyml : Plain t.yml) (hun : Unaltered r.tree t.flow)
    (hn : Unambiguous set (withinIn (n + 1) t.flow))
    (hinner : ∀ {u s}, Faithful set n u s → OrdinaryTask u → Unambiguous set (withinIn n u.flow) →
      OrdinaryResult s) (hd : Ordinary d) (hnotes : Plain d.notes) : OrdinaryStep here.head := by
  have hplain : Plain (d.step i) := by
    rw [here.awaits.step]
    exact (hyml.start (openWorkflow_opens run.opening)).2 i
  have hmem : here.key ∈ keysIn t.yml := by
    rw [run.keysIn_eq]
    exact mem_of_getElem? here.key_eq
  refine ⟨hd, hnotes, hplain, getD_of_getElem? here.key_eq, hn.tools,
    hn.keys _ (mem_withinIn_self n _) _ hmem, fun inner => ?_⟩
  have hsub := here.inner_faithful hun inner
  exact ⟨hsub.kept.yml,
    hinner hsub ⟨hplain.under? inner.found, hd.calls⟩ (hn.inner (here.inner_spec inner).1)⟩

theorem OnceRun.ordinary (run : OnceRun sub set t r) (hn : Unambiguous set ws)
    (hw : t.flow ∈ ws) (hlast : Ordinary run.last) : OrdinaryResult r := by
  obtain ⟨concl⟩ := run.concluded
  constructor
  · rw [concl.calls]
    exact hlast.calls
  · intro a ha hpath
    rw [mem_namesIn_map (by rw [concl.part]; exact concl.inputs), has_update] at ha
    rw [concl.given]
    rcases ha with hown | ha
    · rw [hn.inputs _ hw a (run.own_declared concl hown)] at hpath
      cases hpath
    · exact hlast.inputs a ha hpath

end Once

section Nested

variable {set : Setting} {n : Nat} {t : Task} {r : Compiled}

theorem Plain.start_notes (h : Plain t.yml) (run : OnceRun sub set t r) : Plain run.start.notes :=
  (h.start (openWorkflow_opens run.opening)).1

theorem OrdinaryTask.start (ht : OrdinaryTask t) (run : OnceRun sub set t r) :
    Ordinary (.start t run.start) :=
  ⟨ht.calls, by simp [Draft.start, has]⟩

theorem Faithful.ordinary (h : Faithful set n t r) (ht : OrdinaryTask t)
    (hn : Unambiguous set (withinIn n t.flow)) : OrdinaryResult r := by
  induction h using Faithful.induction with
  | @step n _ _ h run ih =>
    exact run.ordinary hn (mem_withinIn_self n _)
      (run.keeps_steps (P := fun _ d => Ordinary d ∧ Plain d.notes)
      (fun j d e here hd => (here.ordinaryStep ht.plain h.kept hn ih hd.1 hd.2).keeps)
      ⟨ht.start run, ht.plain.start_notes run⟩).1

section

variable (run : OnceRun (compileAt set n) set t r) (ht : OrdinaryTask t)
  (hun : Unaltered r.tree t.flow) (hn : Unambiguous set (withinIn (n + 1) t.flow))

include run ht hun hn

theorem keeps_ordinary {P : Nat → Draft → Prop}
    (hstep : ∀ j d e (here : StepIn run j d e), OrdinaryStep here.head → P j d → P (j + 1) e)
    (hstart : P 0 (.start t run.start)) : P run.start.keys.length run.last := by
  refine (run.keeps_steps (P := fun j d => (Ordinary d ∧ Plain d.notes) ∧ P j d)
    (fun j d e here hd => ?_) ⟨⟨ht.start run, ht.plain.start_notes run⟩, hstart⟩).2
  have hord := here.ordinaryStep ht.plain hun hn Faithful.ordinary hd.1.1 hd.1.2
  exact ⟨hord.keeps, hstep j d e here hord hd.2⟩

theorem inner_ordinary (hw : innerAt t.yml i = some w) :
    ∃ u s, Faithful set n u s ∧ r.tree.subs[i]? = some s.tree ∧ u.flow = w ∧ OrdinaryTask u := by
  obtain ⟨place⟩ := run.stepAt (P := fun _ d => Ordinary d ∧ Plain d.notes)
    (fun j d e here hd => (here.ordinaryStep ht.plain hun hn Faithful.ordinary hd.1 hd.2).keeps)
    ⟨ht.start run, ht.plain.start_notes run⟩ (run.lt_of_innerAt hw)
  have hord := place.here.ordinaryStep ht.plain hun hn Faithful.ordinary place.holds.1 place.holds.2
  obtain ⟨inner, hflow, hpart⟩ := place.here.exists_inner hw
  exact ⟨_, inner.result, place.here.inner_faithful hun inner, hpart, hflow,
    hord.step.under? inner.found, hord.ordinary.calls⟩

end

end Nested

end WorkflowInference.Compile
