import WorkflowInference.Proofs.Compile.Reading

/-!
References bind no inputs but their own. References that wait to be resolved are kept by name, in a
table that goes into all workflows that are compiled later; so an input is taken for one that refers
to something exactly when it is called as one of them. An input whose name is not among them is
bound to a value that is given inside, or as inference says.
-/
namespace WorkflowInference.Compile

open Entries Logged Namespaces List Draft

variable {x a k : String}

def referringAt (yml : Doc) (i : Nat) : List String :=
  ((bindings (statedStep yml i)).filterMap (·.1.str?)).filter fun a => (referenceAt yml i a).isSome

/-- The names under which references are kept: those that are given to outputs, those of the inputs
that refer to something, and those of the inputs that tell a step where to find things. -/
def referenceNames (set : Setting) (ws : List (String × Doc)) : List String :=
  ws.flatMap fun w => (range (keysIn w.2).length).flatMap fun i =>
    (anchorsOf (statedStep w.2 i)).map (·.1) ++ (referringAt w.2 i ++
      if (keysIn w.2).getD i "" = interpreterKey then pathInputs
      else []).map (nameOf set w i ++ sep ++ ·)

def isReferenceName (names : List String) (x : String) : Bool :=
  names.any fun b => x == b || Text.endsWith x (sep ++ b)

/-- The names under which a workflow gives values: for the inputs that a step provides, and for
those inside the workflow that a step is. -/
inductive IsGiven (set : Setting) : String × Doc → String → Prop
  | own {w : String × Doc} {i : Nat} {a : String} (hi : i < (keysIn w.2).length)
      (ha : a ∈ providedAt w.2 i) (hno : referenceAt w.2 i a = none) :
      IsGiven set w (nameOf set w i ++ sep ++ a)
  | inner {w v : String × Doc} {i : Nat} {a : String} (hv : innerAt w.2 i = some v)
      (ha : IsGiven set v a) : IsGiven set w (nameOf set w i ++ sep ++ a)

variable {names : List String}

theorem mem_referringAt {yml x : Doc} {i : Nat} (h : referenceAt yml i a = some x) :
    a ∈ referringAt yml i := by
  obtain ⟨-, -, v, hv, -, -⟩ := referenceAt_eq_some h
  refine mem_filter.mpr ⟨mem_filterMap.mpr ⟨_, mem_of_get? hv, rfl⟩, ?_⟩
  rw [h]
  rfl

theorem isReferenceName_of_mem (h : x ∈ names) : isReferenceName names x :=
  any_eq_true.mpr ⟨x, h, by simp⟩

theorem isReferenceName_inName (n : String) (h : isReferenceName names x) :
    isReferenceName names (n ++ sep ++ x) := by
  obtain ⟨b, hb, heq⟩ := any_eq_true.mp h
  refine any_eq_true.mpr ⟨b, hb, ?_⟩
  rw [Bool.or_eq_true] at heq ⊢
  refine .inr (Text.endsWith_iff.mpr ?_)
  rcases heq with heq | hend
  · rw [eq_of_beq heq, String.append_assoc, String.toList_append (s := n)]
    exact suffix_append _ _
  · rw [String.toList_append (t := x)]
    exact (Text.endsWith_iff.mp hend).trans (suffix_append _ _)

/-- The tables of a draft hold nothing but references and values of the source. -/
structure Tabled (names : List String) (set : Setting) (w : String × Doc) (calls : EdgeSites)
    (given : Entries) : Prop where
  calls : ∀ k, Keyed.has calls k → isReferenceName names k
  given : ∀ e ∈ given, ∃ k, e.1 = .str k ∧ IsGiven set w k

section Inputs

variable {names : List String} {set : Setting} {w : String × Doc} {calls : EdgeSites}
  {given : Entries}

section

variable (h : Tabled names set w calls given)

include h

theorem Tabled.call
    (hk : isReferenceName names k) : Tabled names set w (Keyed.put calls k site) given := by
  refine ⟨fun l hl => ?_, h.given⟩
  rw [Keyed.has_put, Bool.or_eq_true, decide_eq_true_eq] at hl
  rcases hl with rfl | hl
  · exact hk
  · exact h.calls l hl

theorem Tabled.give (hk : IsGiven set w k) :
    Tabled names set w calls (put given k v) := by
  refine ⟨h.calls, fun e he => ?_⟩
  rcases mem_put he with he | rfl
  · exact h.given e he
  · exact ⟨k, rfl, hk⟩

theorem Tabled.enterAnchors (hanchors : ∀ a ∈ anchors, a.1 ∈ names) :
    Tabled names set w (enterAnchors path anchors calls) given := by
  induction anchors generalizing calls with
  | nil => exact h
  | cons a as ih =>
    refine ih (h.call ?_) fun b hb => hanchors b (mem_cons_of_mem _ hb)
    exact isReferenceName_of_mem (hanchors a mem_cons_self)

end

theorem Tabled.taken (hd : Tabled names set w d.edgeCalls d.given) (h : Taken c s d arg val e)
    (hgive : (isAuxiliary arg = false → (under? val Yaml.inlineKey).isSome ∧
      under? val Yaml.aliasKey = none) → IsGiven set w (s.inName arg))
    (hrefer : ∀ x, isAuxiliary arg = false → under? val Yaml.aliasKey = some x →
      s.inName arg ∈ names) : Tabled names set w e.edgeCalls e.given := by
  cases h with
  | auxiliary haux => exact hd.give (hgive fun h => by simp [haux] at h)
  | unresolved haux htarget => exact hd.call (isReferenceName_of_mem (hrefer _ haux htarget))
  | deferred haux htarget => exact hd.call (isReferenceName_of_mem (hrefer _ haux htarget))
  | resolved => exact hd
  | value _ halias hval => exact hd.give (hgive fun _ => ⟨by rw [hval]; rfl, halias⟩)
  | raw => exact hd

theorem Tabled.supplied (hd : Tabled names set w d.edgeCalls d.given)
    (h : Supplied c s provided referred d arg e) : Tabled names set w e.edgeCalls e.given := by
  cases h with
  | passedOn _ _ _ hcall =>
    exact hd.call (isReferenceName_inName _ (hd.calls arg (by rw [Keyed.has, hcall]; rfl)))
  | _ => exact hd

theorem Tabled.isGiven (hd : Tabled names set w calls given) (h : has given k) :
    IsGiven set w k := by
  obtain ⟨v, hv⟩ := Option.isSome_iff_exists.mp h
  obtain ⟨l, hl, hgiven⟩ := hd.given _ (mem_of_get? hv)
  cases hl
  exact hgiven

end Inputs

section Step

variable {names : List String} {set : Setting}
  {run : OnceRun sub set t r} {i : Nat} {d e : Draft}

structure TabledStep (names : List String) (here : StepIn run i d e) : Prop where
  before : Tabled names set (t.path, t.yml) d.edgeCalls d.given
  unaltered : Unaltered r.tree (t.path, t.yml)
  inner : ∀ inner : SubRun here.head,
    Tabled names set (here.key, inner.yml) inner.result.env.edgeCalls inner.result.env.given
  anchors : ∀ a ∈ anchorsOf (statedStep t.yml i), a.1 ∈ names
  references : ∀ a ∈ referringAt t.yml i, nameOf set (t.path, t.yml) i ++ sep ++ a ∈ names
  paths : here.key = interpreterKey → ∀ p ∈ pathInputs,
    nameOf set (t.path, t.yml) i ++ sep ++ p ∈ names

variable {here : StepIn run i d e}

theorem TabledStep.brought (h : TabledStep names here) :
    Tabled names set t.flow here.head.brought.edgeCalls here.head.brought.given := by
  rcases here.head.brought_cases with ⟨⟨inner⟩⟩ | ⟨⟨tool⟩⟩
  · have hinner := h.inner inner
    rw [calls_of_core inner.brought, given_of_core inner.brought]
    refine ⟨fun k hk => (Keyed.has_update.mp hk).elim (h.before.calls k) (hinner.calls k),
      fun x hx => ?_⟩
    have hstr : ∀ f ∈ inner.result.env.given.map fun g =>
        ((Doc.str (here.head.site.name ++ sep ++ g.1.text), g.2) : Doc × Doc),
        ∃ k, f.1 = .str k ∧ IsGiven set t.flow k := by
      intro f hf
      obtain ⟨g, hg, rfl⟩ := mem_map.mp hf
      obtain ⟨k, hk, hgiven⟩ := hinner.given g hg
      rw [hk, here.site_nameOf]
      exact ⟨_, rfl, .inner (here.inner_spec inner).1 hgiven⟩
    rcases mem_update_of_str (fun f hf => (hstr f hf).imp fun _ h => h.1) hx with hx | hx
    · exact h.before.given x hx
    · exact hstr x hx
  · rw [tool.brought]
    exact h.before

theorem TabledStep.named (h : TabledStep names here) :
    Tabled names set t.flow here.head.named.edgeCalls here.head.named.given := by
  have hprepared :
      Tabled names set t.flow here.head.prepared.edgeCalls here.head.prepared.given := by
    obtain ⟨-, fs, calls, hprepared, -⟩ := prepare_spec here.head.preparing
    have hgiven : here.head.prepared.given = here.head.brought.given := (congrArg given hprepared :)
    rw [hgiven]
    rcases here.head.prepared_tags with ⟨hint, tags, rfl, -, hcalls⟩ | ⟨-, -, hcalls⟩
    · rw [hcalls]
      refine ⟨fun k hk => ?_, h.brought.given⟩
      rcases setTags_calls hk with hk | ⟨p, hp, rfl⟩
      · exact h.brought.calls k hk
      · rw [here.site_nameOf]
        exact isReferenceName_of_mem (h.paths hint p hp)
    · rw [hcalls]
      exact h.brought
  rw [here.head.named_spec.2.2.1, here.head.named_spec.2.2.2.2, here.brought_step h.unaltered]
  exact hprepared.enterAnchors fun a ha => h.anchors a ha

theorem TabledStep.taken (h : TabledStep names here) :
    Tabled names set t.flow here.head.taken.edgeCalls here.head.taken.given := by
  refine (here.taken_said h.unaltered).keeps (P := fun d =>
    Tabled names set t.flow d.edgeCalls d.given) ?_ h.named
  rintro k hk x y hx ⟨arg, val, f, rfl, hf, hcore, hsaid⟩
  rw [calls_of_core hcore, given_of_core hcore]
  refine hx.taken hf (fun hgive => ?_) fun u haux hu => ?_
  · rw [Site.inName, here.site_nameOf]
    refine .own here.lt_length (here.mem_providedAt hk) ?_
    cases haux : isAuxiliary arg with
    | true => simp [referenceAt, haux]
    | false => exact (hsaid haux).2 (hgive haux).1 (hgive haux).2
  · rw [Site.inName, here.site_nameOf]
    exact h.references _ (mem_referringAt ((hsaid haux).1 u hu))

theorem Tabled.requires (hf : Tabled names set w f.edgeCalls f.given)
    (h : Supplies c s provided referred a f g) : Tabled names set w g.edgeCalls g.given := by
  obtain ⟨-, x, hx, hcore, -⟩ := h
  rw [calls_of_core hcore, given_of_core hcore]
  exact hf.supplied hx

theorem TabledStep.last (h : TabledStep names here) :
    Tabled names set t.flow e.edgeCalls e.given := by
  obtain ⟨outs, sigs, -, -, s, hlast, -⟩ := here.head.closed_spec
  have hcalls : e.edgeCalls = here.head.bound.edgeCalls := (congrArg edgeCalls hlast :)
  have hgiven : e.given = here.head.bound.given := (congrArg given hlast :)
  rw [hcalls, hgiven]
  refine here.head.bound_chain.keeps (P := fun d =>
    Tabled names set t.flow d.edgeCalls d.given) ?_ h.taken
  exact fun arg _ x y hx hxy => hx.requires hxy

end Step

section Once

variable {names : List String} {set : Setting} {n i : Nat} {t : Task} {r : Compiled}
  {w : String × Doc}

theorem mem_referenceNames (hw : w ∈ ws) (hi : i < (keysIn w.2).length)
    (hx : x ∈ (anchorsOf (statedStep w.2 i)).map (·.1) ++
      (referringAt w.2 i ++ if (keysIn w.2).getD i "" = interpreterKey then pathInputs else []).map
        (nameOf set w i ++ sep ++ ·)) :
    x ∈ referenceNames set ws :=
  mem_flatMap.mpr ⟨w, hw, mem_flatMap.mpr ⟨i, mem_range.mpr hi, hx⟩⟩

theorem referenceNames_inner (hv : innerAt w.2 i = some v)
    (h : ∀ x ∈ referenceNames set (withinIn (n + 1) w), x ∈ names) :
    ∀ x ∈ referenceNames set (withinIn n v), x ∈ names := by
  intro x hx
  obtain ⟨u, hu, hx⟩ := mem_flatMap.mp hx
  exact h x (mem_flatMap.mpr ⟨u, mem_withinIn_inner hv hu, hx⟩)

end Once

namespace PartTree

/-- An input of a step that no reference captures: it takes a value that is given for it inside, or
what inference says. -/
def Uncaptured (set : Setting) (w : String × Doc) (q : PartTree) (i : Nat) (a : String) : Prop :=
  (IsGiven set w (nameOf set w i ++ sep ++ a) ∧
    q.bindingAt i a = some (.str (nameOf set w i ++ sep ++ a))) ∨
  ∃ v, q.inferredAt set w i a = .ok v ∧ q.bindingAt i a = some v

end PartTree

section Nested

variable {names : List String} {set : Setting} {n : Nat} {t : Task} {r : Compiled}

theorem StepIn.tabledStep {run : OnceRun (compileAt set n) set t r} {j : Nat} {d e : Draft}
    (here : StepIn run j d e) (hun : Unaltered r.tree t.flow)
    (hnames : ∀ x ∈ referenceNames set (withinIn (n + 1) t.flow), x ∈ names)
    (hinner : ∀ {u s}, Faithful set n u s → (∀ k, Keyed.has u.edgeCalls k →
      isReferenceName names k) → (∀ x ∈ referenceNames set (withinIn n u.flow), x ∈ names) →
      Tabled names set u.flow s.env.edgeCalls s.env.given)
    (hd : Tabled names set t.flow d.edgeCalls d.given) : TabledStep names here := by
  have hmem :=
    fun x hx => hnames x (mem_referenceNames (mem_withinIn_self n t.flow) here.lt_length hx)
  refine ⟨hd, hun, fun inner => ?_, fun a ha => ?_, fun a ha => ?_, fun hint p hp => ?_⟩
  · exact hinner (here.inner_faithful hun inner) hd.calls
      (referenceNames_inner (w := t.flow) (here.inner_spec inner).1 hnames)
  · exact hmem _ (mem_append_left _ (mem_map_of_mem ha))
  · exact hmem _ (mem_append_right _ (mem_map.mpr ⟨a, mem_append_left _ ha, rfl⟩))
  · refine hmem _ (mem_append_right _ (mem_map.mpr ⟨p, mem_append_right _ ?_, rfl⟩))
    rw [if_pos (here.keys_getD.trans hint)]
    exact hp

theorem Faithful.tabled (h : Faithful set n t r)
    (ht : ∀ k, Keyed.has t.edgeCalls k → isReferenceName names k)
    (hnames : ∀ x ∈ referenceNames set (withinIn n t.flow), x ∈ names) :
    Tabled names set t.flow r.env.edgeCalls r.env.given := by
  induction h using Faithful.induction with
  | @step _ t _ h run ih =>
    obtain ⟨concl⟩ := run.concluded
    rw [concl.calls, concl.given]
    refine run.keeps_steps (P := fun _ d => Tabled names set t.flow d.edgeCalls d.given)
      (fun j d e here hd => ?_) ⟨ht, by simp [Draft.start]⟩
    exact (here.tabledStep h.kept hnames ih hd).last

section

variable (run : OnceRun (compileAt set n) set t r)
  (ht : ∀ k, Keyed.has t.edgeCalls k → isReferenceName names k) (hun : Unaltered r.tree t.flow)
  (hnames : ∀ x ∈ referenceNames set (withinIn (n + 1) t.flow), x ∈ names) {i : Nat}

include ht hun hnames

theorem OnceRun.tabledAt (hi : i < run.start.keys.length) :
    ∃ place : StepAt run (fun _ d => Tabled names set t.flow d.edgeCalls d.given) i,
      TabledStep names place.here := by
  obtain ⟨place⟩ := run.stepAt (P := fun _ d => Tabled names set t.flow d.edgeCalls d.given)
    (fun j d e here hd => (here.tabledStep hun hnames Faithful.tabled hd).last)
    ⟨ht, by simp [Draft.start]⟩ hi
  exact ⟨place, place.here.tabledStep hun hnames Faithful.tabled place.holds⟩

include run in
theorem OnceRun.uncaptured (hinfer : set.options.noInference = false)
    (hi : i < (keysIn t.yml).length) (ha : a ∈ r.tree.requiredAt i) (hprov : a ∉ providedAt t.yml i)
    (hname : isReferenceName names a = false) : r.tree.Uncaptured set t.flow i a := by
  rw [run.keysIn_eq] at hi
  obtain ⟨place, htabled⟩ := run.tabledAt ht hun hnames hi
  rw [place.requiredAt] at ha
  obtain ⟨last⟩ := place.here.head.lastSupply (P := fun d => Tabled names set t.flow d.edgeCalls
    d.given) (fun _ _ _ _ hf h => hf.requires h) htabled.taken ha
  have hnot := not_any_of_not_mem fun hk => hprov (place.here.mem_providedAt hk)
  have hcall : Keyed.has last.before.edgeCalls a = false := by
    rw [← Bool.not_eq_true]
    intro hcalled
    rw [last.holds.calls a hcalled] at hname
    cases hname
  have hsite : place.here.head.site.inName a = nameOf set t.flow i ++ sep ++ a := by
    rw [Site.inName, place.here.site_nameOf]
  rcases last.supplied.of_not_called hcall hnot hinfer with
    ⟨hgiven, hsteps⟩ | ⟨sig, w, found, seen, hwanted, hfound, hafter⟩
  · rw [hsite] at hgiven hsteps
    exact .inl ⟨last.holds.isGiven hgiven, place.bindingAt_bind last hsteps⟩
  · exact .inr
      ⟨_, place.inferredAt last hun hwanted hfound rfl (by rw [hafter]; cases found <;> rfl)⟩

end

theorem Faithful.uncaptured (hinfer : set.options.noInference = false) (h : Faithful set n t r)
    (ht : ∀ k, Keyed.has t.edgeCalls k → isReferenceName names k)
    (hnames : ∀ x ∈ referenceNames set (withinIn n t.flow), x ∈ names) :
    ∀ is w, subAt t.flow is = some w → ∃ q, r.tree.at? is = some q ∧ ∀ i < (keysIn w.2).length,
      ∀ a ∈ q.requiredAt i, a ∉ providedAt w.2 i → isReferenceName names a = false →
      q.Uncaptured set w i a := by
  induction h using Faithful.induction with
  | @step _ _ r h run ih =>
    rintro (_ | ⟨i, is⟩) w hw
    · cases hw
      exact ⟨r.tree, rfl, fun i hi a ha hprov hname =>
        run.uncaptured ht h.kept hnames hinfer hi ha hprov hname⟩
    · obtain ⟨v, hv, hw⟩ := Option.bind_eq_some_iff.mp hw
      obtain ⟨place, -⟩ := run.tabledAt ht h.kept hnames (run.lt_of_innerAt hv)
      obtain ⟨inner, rfl, hsubs⟩ := place.here.exists_inner hv
      rw [PartTree.at?, hsubs, Option.bind_some]
      exact ih (place.here.inner_faithful h.kept inner) place.holds.calls
        (referenceNames_inner hv hnames) is w hw

end Nested

/-- In every workflow inside a workflow, an input that a step needs and does not provide, and that
is not called like a reference, is bound to a value that is given inside or as inference says. -/
theorem compile_uncaptured {set : Setting} {path : String} {yml : Doc} {graph : Graph}
    {r : Compiled} (hinfer : set.options.noInference = false)
    (h : (compile set (.root path yml graph)).Yields r) (hun : Unaltered r.tree (path, yml)) :
    ∀ is w, subAt (path, yml) is = some w → ∃ q, r.tree.at? is = some q ∧ ∀ i < (keysIn w.2).length,
      ∀ a ∈ q.requiredAt i, a ∉ providedAt w.2 i →
        isReferenceName (referenceNames set (within path yml)) a = false →
        q.Uncaptured set w i a := by
  obtain ⟨s, hs, rfl⟩ := h.of_map
  exact Faithful.uncaptured hinfer ⟨hs, hun⟩ (fun k hk => by cases hk) fun x hx => hx

open Sample in
theorem compile_uncaptured_referring :
    ∃ r, (compile (setting [echoTool, catTool])
        (.root "wf.wic" referring (Graph.empty "" ""))).Yields r ∧
      ∃ w q, subAt ("wf.wic", referring) [1] = some w ∧ r.tree.at? [1] = some q ∧
      "f" ∈ q.requiredAt 1 ∧ q.Uncaptured (setting [echoTool, catTool]) w 1 "f" := by
  have hsome : (compiled (setting [echoTool, catTool]) "wf.wic" referring).any
      (fun r => (r.tree.at? [1]).any fun q => (q.requiredAt 1).contains "f") = true := by
    decide +kernel
  obtain ⟨r, hr, hq⟩ := Logged.yields_of_any hsome
  obtain ⟨q, hq, hreq⟩ := Option.any_eq_true _ _ |>.mp hq
  have hreq := List.contains_iff_mem.mp hreq
  have hinner : (subAt ("wf.wic", referring) [1]).any (fun w =>
      decide (1 < (keysIn w.2).length ∧ "f" ∉ providedAt w.2 1)) = true := by
    decide +kernel
  obtain ⟨w, hw, hsaid⟩ := Option.any_eq_true _ _ |>.mp hinner
  obtain ⟨hlt, hprov⟩ := of_decide_eq_true hsaid
  refine ⟨r, hr, w, q, hw, hq, hreq, ?_⟩
  obtain ⟨q', hq', hall⟩ := compile_uncaptured rfl hr (compile_unaltered rfl hr) [1] w hw
  rw [hq] at hq'
  cases hq'
  exact hall 1 hlt "f" hreq hprov (by decide +kernel)

end WorkflowInference.Compile
