import WorkflowInference.Proofs.Compile.Leaves

/-!
What a step enters among the inputs of the workflow and the values that are given for them. All of
it stands under the name of the step, and different steps have different names, so what a step
enters stays as it is, and nothing is entered for a step before it is compiled. An input of a tool
may be left out when it has a default that counts as true or a type that says so; any other input,
also one whose default is zero or empty, is bound.
-/
namespace WorkflowInference.Compile

open Entries Namespaces Draft
open Yaml (aliasKey inlineKey)

def Adds (name : String) (es fs : Entries) : Prop :=
  ∀ x ∈ fs, x ∈ es ∨ ∃ y, x.1 = .str (name ++ sep ++ y)

theorem Adds.trans (h : Adds name es fs) (h' : Adds name fs gs) : Adds name es gs := by
  intro x hx
  exact (h' x hx).elim (h x) .inr

section Inputs

variable {c : Scope} {s : Site} {provided : List Doc} {referred : List String} {d e : Draft}
  {arg : String} {val : Doc}

theorem Taken.adds (h : Taken c s d arg val e) :
    (∀ x ∈ e.given, x ∈ d.given ∨ x.1 = .str (s.inName arg)) ∧ ∀ x ∈ e.inputs, x ∈ d.inputs ∨
      x.1 = .str (s.inName arg) := by
  have hput : ∀ {es : Entries} {v : Doc} (x : Doc × Doc), x ∈ put es (s.inName arg) v →
      x ∈ es ∨ x.1 = .str (s.inName arg) := fun x hx => (mem_put hx).imp_right (congrArg Prod.fst)
  cases h with
  | auxiliary => exact ⟨hput, hput⟩
  | unresolved => exact ⟨fun _ => .inl, hput⟩
  | deferred => exact ⟨fun _ => .inl, hput⟩
  | resolved => exact ⟨fun _ => .inl, fun _ => .inl⟩
  | value => exact ⟨hput, hput⟩
  | raw => exact ⟨fun _ => .inl, fun _ => .inl⟩

theorem Supplied.adds (h : Supplied c s provided referred d arg e)
    (hname : s.name = stepName c.stem s.index (c.keys.getD s.index "")) :
    e.given = d.given ∧ ∀ x ∈ e.inputs, x ∈ d.inputs ∨ x.1 = .str (s.inName arg) := by
  have hput : ∀ {v : Doc} (x : Doc × Doc), x ∈ put d.inputs (s.inName arg) v →
      x ∈ d.inputs ∨ x.1 = .str (s.inName arg) :=
      fun x hx => (mem_put hx).imp_right (congrArg Prod.fst)
  cases h with
  | provided => exact ⟨rfl, fun _ => .inl⟩
  | left => exact ⟨rfl, fun _ => .inl⟩
  | given => exact ⟨rfl, hput⟩
  | passedOn => exact ⟨rfl, hput⟩
  | resolved => exact ⟨rfl, fun _ => .inl⟩
  | inferred => exact ⟨rfl, fun _ => .inl⟩
  | raised =>
    rw [← hname]
    exact ⟨rfl, hput⟩

end Inputs

section Step

section

variable (run : StepRun sub c i key d e)

include run

theorem StepRun.brought_adds :
    Adds run.site.name d.given run.brought.given ∧ run.brought.inputs = d.inputs := by
  rcases run.brought_cases with ⟨⟨inner⟩⟩ | ⟨⟨tool⟩⟩
  · have hgiven := given_of_core inner.brought
    have hinputs := inputs_of_core inner.brought
    refine ⟨fun x hx => ?_, hinputs⟩
    rw [hgiven] at hx
    refine (mem_update_of_str ?_ hx).imp_right fun hx => ?_
    · intro y hy
      obtain ⟨z, -, rfl⟩ := List.mem_map.mp hy
      exact ⟨_, rfl⟩
    · obtain ⟨z, -, rfl⟩ := List.mem_map.mp hx
      exact ⟨_, rfl⟩
  · rw [tool.brought]
    exact ⟨fun _ => .inl, rfl⟩

theorem StepRun.named_rest :
    run.named.given = run.brought.given ∧ run.named.inputs = run.brought.inputs := by
  obtain ⟨-, fs, calls, hprepared, -⟩ := prepare_spec run.preparing
  obtain ⟨-, -, -, hinputs, hgiven⟩ := run.named_spec
  exact ⟨hgiven.trans (congrArg given hprepared :), hinputs.trans (congrArg inputs hprepared :)⟩

theorem StepRun.taken_adds :
    (∀ x ∈ run.taken.given, x ∈ run.brought.given ∨ ∃ a, .str a ∈ run.provided ∧
      x.1 = .str (run.site.inName a)) ∧
      ∀ x ∈ run.taken.inputs, x ∈ d.inputs ∨ ∃ a, .str a ∈ run.provided ∧
      x.1 = .str (run.site.inName a) := by
  obtain ⟨hgiven, hinputs⟩ := run.named_rest
  rw [← run.brought_adds.2, ← hgiven, ← hinputs]
  refine run.taken_chain.keeps (P := fun f =>
    (∀ x ∈ f.given, x ∈ run.named.given ∨ ∃ a, .str a ∈ run.provided ∧
      x.1 = .str (run.site.inName a)) ∧
      ∀ x ∈ f.inputs, x ∈ run.named.inputs ∨ ∃ a, .str a ∈ run.provided ∧
      x.1 = .str (run.site.inName a)) ?_
    ⟨fun _ => .inl, fun _ => .inl⟩
  rintro k hk f g ⟨hf, hf'⟩ ⟨-, arg, val, val', z, rfl, -, -, hz, hcore, -⟩
  rw [given_of_core hcore, inputs_of_core hcore]
  constructor
  · intro x hx
    exact (hz.adds.1 x hx).elim (hf x) fun hx => .inr ⟨arg, hk, hx⟩
  · intro x hx
    exact (hz.adds.2 x hx).elim (hf' x) fun hx => .inr ⟨arg, hk, hx⟩

theorem StepRun.bound_adds (hname : run.site.name = stepName c.stem i (c.keys.getD i "")) :
    run.bound.given = run.taken.given ∧
      ∀ x ∈ run.bound.inputs, x ∈ run.taken.inputs ∨
      ∃ a ∈ run.required, x.1 = .str (run.site.inName a) := by
  refine run.bound_chain.keeps (P := fun f => f.given = run.taken.given ∧
    ∀ x ∈ f.inputs, x ∈ run.taken.inputs ∨
    ∃ a ∈ run.required, x.1 = .str (run.site.inName a)) ?_ ⟨rfl, fun _ => .inl⟩
  rintro arg harg f g ⟨hf, hf'⟩ ⟨-, z, hz, hcore, -⟩
  obtain ⟨hgiven, hinputs⟩ := hz.adds hname
  rw [given_of_core hcore, inputs_of_core hcore]
  refine ⟨hgiven.trans hf, fun x hx => ?_⟩
  exact (hinputs x hx).elim (hf' x) fun hx => .inr ⟨arg, harg, hx⟩

theorem StepRun.last_rest : e.given = run.bound.given ∧ e.inputs = run.bound.inputs := by
  obtain ⟨outs, sigs, -, -, s, hlast, -⟩ := run.closed_spec
  exact ⟨(congrArg given hlast :), (congrArg inputs hlast :)⟩

theorem StepRun.adds (hname : run.site.name = stepName c.stem i (c.keys.getD i "")) :
    Adds run.site.name d.given e.given ∧ Adds run.site.name d.inputs e.inputs := by
  obtain ⟨hgiven, hinputs⟩ := run.last_rest
  obtain ⟨hbound, hbound'⟩ := run.bound_adds hname
  obtain ⟨htaken, htaken'⟩ := run.taken_adds
  rw [hgiven, hinputs, hbound]
  refine ⟨run.brought_adds.1.trans fun x hx => ?_, fun x hx => ?_⟩
  · exact (htaken x hx).imp_right fun ⟨a, _, ha⟩ => ⟨a, ha⟩
  · rcases hbound' x hx with hx | hx
    · exact (htaken' x hx).imp_right fun ⟨a, _, ha⟩ => ⟨a, ha⟩
    · exact .inr (hx.imp fun _ ha => ha.2)

end

end Step

structure Untouched (c : Scope) (j : Nat) (d : Draft) : Prop where
  given : ∀ m, j ≤ m →
    ∀ x ∈ d.given, ∀ y, x.1.text ≠ stepName c.stem m (c.keys.getD m "") ++ sep ++ y
  inputs : ∀ m, j ≤ m →
    ∀ x ∈ d.inputs, ∀ y, x.1.text ≠ stepName c.stem m (c.keys.getD m "") ++ sep ++ y

structure Keeps (c : Scope) (i : Nat) (d e : Draft) : Prop where
  given : ∀ x ∈ e.given, ∀ y, x.1.text = stepName c.stem i (c.keys.getD i "") ++ sep ++ y →
    x ∈ d.given
  inputs : ∀ x ∈ e.inputs, ∀ y, x.1.text = stepName c.stem i (c.keys.getD i "") ++ sep ++ y →
    x ∈ d.inputs

theorem Adds.other {c : Scope} {i m : Nat} {es fs : Entries}
    (h : Adds (stepName c.stem i (c.keys.getD i "")) es fs) (hne : m ≠ i) {x : Doc × Doc}
    (hx : x ∈ fs) {y : String} (hy : x.1.text = stepName c.stem m (c.keys.getD m "") ++ sep ++ y) :
    x ∈ es := by
  refine (h x hx).resolve_right ?_
  rintro ⟨z, hz⟩
  rw [hz] at hy
  change stepName c.stem i (c.keys.getD i "") ++ sep ++ z = _ at hy
  rw [String.append_assoc, String.append_assoc] at hy
  exact hne (stepName_append_inj hy).1.symm

section Once

variable {set : Setting} {run : OnceRun sub set t r}
  {i j : Nat} {d e f : Draft}

theorem Untouched.start (run : OnceRun sub set t r) :
    Untouched run.scope 0 (.start t run.start) := by
  constructor <;> intro m _ x hx <;> cases hx

theorem Untouched.step (h : Untouched run.scope i d) (here : StepIn run i d e)
    (hname : here.head.site.name = stepName run.scope.stem i (run.scope.keys.getD i "")) :
    Untouched run.scope (i + 1) e := by
  have hadds := here.head.adds hname
  rw [hname] at hadds
  constructor
  · intro m hm x hx y hy
    exact h.given m (by omega) x (hadds.1.other (by omega) hx hy) y hy
  · intro m hm x hx y hy
    exact h.inputs m (by omega) x (hadds.2.other (by omega) hx hy) y hy

theorem Keeps.refl (c : Scope) (i : Nat) (d : Draft) : Keeps c i d d :=
  ⟨fun _ hx _ _ => hx, fun _ hx _ _ => hx⟩

theorem Keeps.step (h : Keeps run.scope i d e) (here : StepIn run j e f)
    (hname : here.head.site.name = stepName run.scope.stem j (run.scope.keys.getD j ""))
    (hlt : i < j) : Keeps run.scope i d f := by
  have hadds := here.head.adds hname
  rw [hname] at hadds
  constructor
  · intro x hx y hy
    exact h.given x (hadds.1.other (by omega) hx hy) y hy
  · intro x hx y hy
    exact h.inputs x (hadds.2.other (by omega) hx hy) y hy

theorem OnceRun.enteredAt (run : OnceRun sub set t r)
    (hname : ∀ j d e (here : StepIn run j d e),
      here.head.site.name = stepName run.scope.stem j (run.scope.keys.getD j ""))
    {P : Nat → Draft → Prop} (hstep : ∀ j d e, StepIn run j d e → P j d → P (j + 1) e)
    (hstart : P 0 (.start t run.start)) (hi : i < run.start.keys.length) :
    ∃ place : StepAt run (fun j d => P j d ∧ Untouched run.scope j d) i,
      Keeps run.scope i place.after run.last := by
  refine run.stepAt_since (fun j d e here hd => ?_) ⟨hstart, .start run⟩ (.refl _ i)
    (fun j x d e here hij hkeeps => ?_) hi
  · exact ⟨hstep j d e here hd.1, hd.2.step here (hname j d e here)⟩
  · exact hkeeps.step here (hname j d e here) hij

end Once

def valueIn (a : String) (v : Doc) : Option Doc :=
  if isAuxiliary a then some v else under? v inlineKey

/-- An input that is taken from one of the workflow, for which a value is given. -/
structure Gives (s : Site) (a : String) (v : Doc) (d : Draft) : Prop where
  bound : d.HasIn s.index
  binding : get? (bindings (d.step s.index)) a = some (source (s.inName a))
  declared : has d.inputs (s.inName a)
  held : has d.given (s.inName a)
  value : ∀ x ∈ d.given, x.1.text = s.inName a → under? x.2 "value" = some v

theorem Site.inName_inj {s : Site} {a b : String} (h : s.inName a = s.inName b) : a = b := by
  have hchars := congrArg String.toList h
  rw [← String.toList_inj]
  simpa [Site.inName] using hchars

section Inputs

variable {c : Scope} {s : Site} {d e : Draft} {arg a : String} {val v : Doc}

theorem Gives.of_core (h : Gives s a v d) (hcore : e.core = d.core) : Gives s a v e := by
  have hstep := step_congr (steps_of_core hcore) s.index
  have hgiven := given_of_core hcore
  refine ⟨?_, hstep ▸ h.binding, inputs_of_core hcore ▸ h.declared, hgiven ▸ h.held,
    hgiven ▸ h.value⟩
  rw [Draft.HasIn, hstep]
  exact h.bound

theorem Gives.of_give (hin : d.HasIn s.index) (hnew : ∀ x ∈ d.given, x.1.text ≠ s.inName a)
    (hv : under? (.map es) "value" = some v) :
    Gives s a v (((d.declare (s.inName a) sig).give (s.inName a) (.map es)).bind s.index a
      (source (s.inName a))) := by
  constructor
  · exact bind_in hin
  · exact get?_of_bind hin rfl
  · simp [Draft.bind, setStep, declare, give, has_put]
  · simp [Draft.bind, setStep, give, has_put]
  · intro x hx htext
    rcases mem_put hx with hx | rfl
    · exact absurd htext (hnew x hx)
    · exact hv

theorem Taken.gives (h : Taken c s d a val e) (hin : d.HasIn s.index)
    (halias : under? val aliasKey = none) (hnew : ∀ x ∈ d.given, x.1.text ≠ s.inName a)
    (hinline : c.setting.options.allowRaw → isAuxiliary a ∨ (under? val inlineKey).isSome)
    (hown : namesInput d val ≠ .ok true) : ∃ v, valueIn a val = some v ∧ Gives s a v e := by
  cases h with
  | auxiliary haux htype => exact ⟨val, by rw [valueIn, if_pos haux], .of_give hin hnew rfl⟩
  | unresolved _ htarget => simp [halias] at htarget
  | deferred _ htarget => simp [halias] at htarget
  | resolved _ htarget => simp [halias] at htarget
  | @value v sig es haux _ hval _ =>
    refine ⟨v, by rw [valueIn, haux]; exact hval, .of_give hin hnew ?_⟩
    rw [under?_map, get?_put_self]
  | raw haux _ hval hknown =>
    rcases hknown with hraw | hname
    · rcases hinline hraw with h | h
      · rw [haux] at h
        cases h
      · rw [hval] at h
        cases h
    · exact absurd hname hown

theorem Gives.takes {k : Doc} (h : Gives s a v d) (ht : Takes c s k d e) : Gives s a v e := by
  have hframe := ht.frame
  obtain ⟨-, arg, val, val', f, -, hval, henc, hf, hcore, -⟩ := ht
  by_cases harg : arg = a
  · -- the source that the input has by now is left as it is
    subst harg
    cases hval.symm.trans h.binding
    obtain rfl := encoded_eq henc (source_inline _)
    refine .of_core ?_ hcore
    cases id hf with
    | auxiliary _ htype => simp [source, Doc.obj, get?] at htype
    | unresolved _ htarget => simp at htarget
    | deferred _ htarget => simp at htarget
    | resolved _ htarget => simp at htarget
    | value _ _ hval => simp at hval
    | raw =>
      exact ⟨bind_in h.bound, hf.bindings_raw h.bound ‹_› ‹_› ‹_›, h.declared, h.held, h.value⟩
  · have hre := hf.rebinds hcore
    refine ⟨hre.keeps_in h.bound, (hre.bindings_ne h.bound harg).trans h.binding,
      hframe.inputs _ h.declared, hframe.given _ h.held, fun x hx htext => ?_⟩
    rw [given_of_core hcore] at hx
    rcases hf.adds.1 x hx with hx | hx
    · exact h.value x hx htext
    · rw [hx] at htext
      exact absurd (Site.inName_inj htext) harg

theorem Gives.supply (h : Gives s a v d) (hprov : provided.any (· == .str a))
    (hname : s.name = stepName c.stem s.index (c.keys.getD s.index ""))
    (hs : Supplies c s provided referred arg d e) : Gives s a v e := by
  have hframe := hs.frame
  obtain ⟨-, f, hf, hcore, -⟩ := hs
  by_cases harg : arg = a
  · subst harg
    rw [hf.of_provided hprov] at hcore
    exact h.of_core hcore
  · have hre := hf.rebinds hcore
    refine ⟨hre.keeps_in h.bound, (hre.bindings_ne h.bound harg).trans h.binding,
      hframe.inputs _ h.declared, hframe.given _ h.held, ?_⟩
    rw [given_of_core hcore, (hf.adds hname).1]
    exact h.value

end Inputs

section Step

variable {key a : String}

theorem StepRun.binding_of_provided (run : StepRun sub c i key d e) (ha : .str a ∈ run.provided) :
    ∃ val, get? (bindings (run.named.step i)) a = some val := by
  obtain ⟨pre, post, f, g, -, hpre, hbefore, ⟨-, arg, val, val', z, hname, hval, -⟩, -⟩ :=
    run.taken_chain.first_split ha
  cases hname
  refine ⟨val, .trans (.symm ?_) hval⟩
  refine hbefore.keeps (P := fun x : Draft => get? (bindings (x.step i)) a = _) ?_ rfl
  rintro k hk x y heq ⟨hx, arg, val, val', z, rfl, -, -, hz, hcore, -⟩
  refine ((hz.rebinds hcore).bindings_ne hx ?_).trans heq
  rintro rfl
  exact hpre hk

theorem StepRun.gives (run : StepRun sub c i key d e) (hord : OrdinaryStep run)
    (hname : run.site.name = stepName c.stem i (c.keys.getD i ""))
    (hown : SameKeys (.map []) d.ownInputs) {val : Doc}
    (hval : get? (bindings (run.named.step i)) a = some val) (ha : .str a ∈ run.provided)
    (hnew : ∀ x ∈ run.named.given, x.1.text ≠ run.site.inName a)
    (hinline : c.setting.options.allowRaw → isAuxiliary a ∨ (under? val inlineKey).isSome) :
    ∃ val' v, encoded a val = .ok val' ∧ valueIn a val' = some v ∧
      Gives run.site a v run.bound := by
  obtain ⟨pre, post, f, g, -, hpre, hbefore,
      ⟨-, arg, val₁, val', z, harg, hval₁, henc, hz, hcore, -⟩, hrest⟩ :=
    run.taken_chain.first_split ha
  cases harg
  -- until the input is taken up, its value stands there and nothing is given for it
  have hf : (Open i f ∧ SameKeys (.map []) f.ownInputs) ∧ get? (bindings (f.step i)) a = some val ∧
      ∀ x ∈ f.given, x.1.text ≠ run.site.inName a := by
    refine hbefore.keeps (P := fun x => (Open i x ∧ SameKeys (.map []) x.ownInputs) ∧
      get? (bindings (x.step i)) a = some val ∧
      ∀ y ∈ x.given, y.1.text ≠ run.site.inName a) ?_ ⟨⟨hord.named_open, ?_⟩, hval, hnew⟩
    · rintro k hk x y ⟨⟨hopen, hkeys⟩, hx, hxnew⟩ ht
      obtain ⟨-, arg, w, w', z, rfl, hw, hw', hz, hcore, -⟩ := id ht
      have hne : arg ≠ a := by
        rintro rfl
        exact hpre hk
      refine ⟨⟨hopen.takes ht, hkeys.trans ht.frame.own⟩,
        ((hz.rebinds hcore).bindings_ne hopen.bound hne).trans hx, ?_⟩
      · rw [given_of_core hcore]
        intro u hu htext
        rcases hz.adds.1 u hu with hu | hu
        · exact hxnew u hu htext
        · rw [hu] at htext
          exact hne (Site.inName_inj htext)
    · exact hown.trans (run.brought_frame.trans
        (run.prepared_frame.trans (run.owned_frame.trans run.named_frame))).own
  obtain ⟨⟨hopen, hkeys⟩, hfval, hfnew⟩ := hf
  cases hval₁.symm.trans hfval
  have hnone : namesInput f val' ≠ .ok true := by
    rw [namesInput]
    split
    · rename_i hhash
      rw [hkeys.includes]
      simp [Doc.includes, at?, hhash]
    · simp
  obtain ⟨v, hv, hgives⟩ := hz.gives hopen.bound (encoded_plain (hopen.values a val hfval)
    henc).under?_alias hfnew (fun hraw => (hinline hraw).imp_right (encoded_inline henc)) hnone
  refine ⟨val', v, henc, hv, ?_⟩
  have htaken :=
    hrest.keeps (P := Gives run.site a v) (fun _ _ _ _ hx ht => hx.takes ht) (hgives.of_core hcore)
  have hprov : run.provided.any (· == .str a) := List.any_eq_true.mpr ⟨_, ha, by simp⟩
  exact run.bound_chain.keeps (fun _ _ _ _ hx hs => hx.supply hprov hname hs) htaken

end Step

open Result Option

def mayOmit (param : Doc) : Bool :=
  ((under? param "default").getD .null).truthy ||
    match under? param "type" with
    | some (.str t) => t.toList.getLast? == some '?'
    | some (.list ts) => ts.any (· == .str "null")
    | _ => false

theorem isRequired_eq_ok (h : isRequired param = .ok b) : b = !mayOmit param := by
  obtain ⟨dflt, hdflt, h⟩ := of_bind h
  rw [mayOmit, ← fieldD_eq_ok hdflt]
  split at h
  · rename_i htruthy
    rw [← pure_eq_ok.mp h, htruthy]
    rfl
  · rename_i htruthy
    obtain ⟨type, htype, h⟩ := of_bind h
    rw [field_eq_ok] at htype
    rw [htype, (Bool.not_eq_true _).mp htruthy, Bool.false_or]
    cases type with
    | str t =>
      dsimp only at h ⊢
      split at h
      · cases h
      · rename_i c hc
        rw [← pure_eq_ok.mp h, hc]
        rfl
    | list ts => exact (pure_eq_ok.mp h).symm
    | _ => exact (pure_eq_ok.mp h).symm

theorem mem_requiredArgs (hcls : under? tool.cwl "class" = some (.str "CommandLineTool"))
    (h : requiredArgs tool params = .ok required) (hparam : under? params a = some param) :
    a ∈ required ↔ mayOmit param = false := by
  obtain ⟨cls, hcls', ks, hks, h⟩ := of_bind₂ h
  rw [field_eq_ok, hcls, some.injEq] at hcls'
  subst hcls'
  dsimp only at h
  rw [if_pos (Doc.beq_str_iff.mpr rfl)] at h
  obtain ⟨ks', hks', h⟩ := of_bind h
  have hfilter :=
    filterM_eq_ok (q := fun k => ((k.str?).bind (under? params)).any fun p => !mayOmit p) ?_ hks'
  · have hmem : .str a ∈ ks := by
      obtain ⟨es, rfl, hmem⟩ := mem_of_under? hparam
      cases hks
      exact List.mem_map_of_mem hmem
    have hrequired : a ∈ required ↔ .str a ∈ ks' := by
      rw [names_eq_ok h]
      simp
    rw [hrequired, hfilter, List.mem_filter]
    simp [hmem, Doc.str?, hparam]
  · intro k b hb
    obtain ⟨name, hname, p, hp, hb⟩ := of_bind₂ hb
    rw [elim_eq_ok] at hname
    rw [hname, bind_some, field_eq_ok.mp hp, any_some, isRequired_eq_ok hb]

section Step

variable {key a : String}

theorem Supplied.binds {s : Site} {provided : List Doc} {referred : List String}
    (h : Supplied c s provided referred d a e) (hprov : provided.any (· == .str a) = false)
    (hinfer : c.setting.options.noInference = false) :
    ∃ v, e.steps = (d.bind s.index a v).steps := by
  cases h with
  | provided h =>
    rw [hprov] at h
    cases h
  | left _ h =>
    rw [hinfer] at h
    cases h
  | _ => exact ⟨_, rfl⟩

theorem StepRun.binding_iff (run : StepRun sub c i key d e) (hprov : .str a ∉ run.provided)
    (hinfer : c.setting.options.noInference = false) :
    (get? (bindings (e.step i)) a).isSome ↔ a ∈ run.required := by
  constructor
  · intro hbound
    rcases List.mem_append.mp (run.bindsOnly _ (has_iff_mem.mp hbound)) with h | h
    · exact absurd h hprov
    · simpa using h
  · intro hreq
    have hnot := not_any_of_not_mem hprov
    obtain ⟨last⟩ := run.lastSupply (P := fun _ => True) (fun _ _ _ _ _ _ => trivial) trivial hreq
    obtain ⟨v, hv⟩ := last.supplied.binds hnot hinfer
    rw [last.binding, Draft.get?_of_bind last.stated hv]
    rfl

theorem StepRun.inputs_adds (run : StepRun sub c i key d e)
    (hname : run.site.name = stepName c.stem i (c.keys.getD i "")) (hx : x ∈ e.inputs) :
    x ∈ d.inputs ∨ ∃ b, (.str b ∈ run.provided ∨ b ∈ run.required) ∧
      x.1 = .str (run.site.inName b) := by
  rw [run.last_rest.2] at hx
  rcases (run.bound_adds hname).2 x hx with hx | ⟨b, hb, hx⟩
  · exact (run.taken_adds.2 x hx).imp_right fun ⟨b, hb, hx⟩ => ⟨b, .inl hb, hx⟩
  · exact .inr ⟨b, .inr hb, hx⟩

end Step

def stepInput (w : String × Doc) (i : Nat) (a : String) : String :=
  stepName (Path.stem w.1) i ((keysIn w.2).getD i "") ++ sep ++ a

/-- Of the inputs of a tool that a step does not provide, exactly those are bound that may not be
left out, and no input of the workflow is made for another one. -/
def PartTree.BindsRequired (set : Setting) (w : String × Doc) (q : PartTree) : Prop :=
  ∀ i params a param, i < (keysIn w.2).length → under? (q.runAt i) "class" =
    some (.str "CommandLineTool") → under? (q.runAt i) "inputs" = some params → under? params a =
    some param → a ∉ providedAt w.2 i → ((q.bindingAt i a).isSome = !mayOmit param) ∧
    (mayOmit param → (∀ id ∈ toolIds w.2, set.tools.has id) → q.IsInput (.str (stepInput w i a)) →
    stepInput w i a ∈ namesIn w.2 "inputs")

section Once

variable {set : Setting}

theorem OnceRun.declared_or_entered (run : OnceRun sub set t r) (h : r.tree.IsInput (.str k)) :
    k ∈ namesIn t.yml "inputs" ∨ has run.last.inputs k := by
  obtain ⟨concl⟩ := run.concluded
  obtain ⟨ins, hins, hk⟩ := h
  rw [concl.part, under?_map, concl.inputs] at hins
  cases hins
  rw [at?_str] at hk
  exact (has_update.mp hk).imp_left (run.own_declared concl)

theorem OnceRun.entered_required (run : OnceRun sub set t r)
    (hknown : ∀ id ∈ toolIds t.yml, set.tools.has id) (hi : i < run.start.keys.length)
    (ha : a ∉ providedAt t.yml i) (h : has run.last.inputs (stepInput t.flow i a)) :
    a ∈ r.tree.requiredAt i := by
  have hinput : stepInput t.flow i a = stepName run.scope.stem i (run.scope.keys.getD i "") ++
      sep ++ a := by
    simp only [stepInput, run.keysIn_eq, OnceRun.scope]
  rw [hinput] at h
  obtain ⟨place, hkeeps⟩ := run.enteredAt (fun _ _ _ here => here.site_name hknown) (P := fun _ _ =>
    True) (fun _ _ _ _ _ => trivial) trivial hi
  have hname := place.here.site_name hknown
  obtain ⟨v, hv⟩ := isSome_iff_exists.mp h
  have hafter := hkeeps.inputs _ (mem_of_get? hv) a rfl
  rcases place.here.head.inputs_adds hname hafter with hold | ⟨b, hb, hx⟩
  · exact absurd rfl (place.holds.2.inputs i (Nat.le_refl i) _ hold a)
  · rw [Doc.str.injEq, ← hname] at hx
    cases place.here.head.site.inName_inj hx
    rw [place.requiredAt]
    exact hb.resolve_left fun hprov => ha (place.here.mem_providedAt hprov)

theorem OnceRun.bindsRequired (run : OnceRun sub set t r)
    (hinfer : set.options.noInference = false) : r.tree.BindsRequired set t.flow := by
  intro i params a param hi hcls hparams hparam ha
  have hlen : i < run.start.keys.length := run.lt_keys hi
  obtain ⟨place⟩ := run.placeAt hlen
  have hreq : a ∈ place.here.head.required ↔ mayOmit param = false := by
    rw [place.runAt] at hcls hparams
    rw [place.here.head.params_eq, some.injEq] at hparams
    exact mem_requiredArgs hcls place.here.head.requiring (hparams ▸ hparam)
  constructor
  · have hbound :=
      place.here.head.binding_iff (fun hprov => ha (place.here.mem_providedAt hprov)) hinfer
    rw [run.bindingAt_eq hlen, place.later.steps i (Nat.le_refl i), Bool.eq_iff_iff, hbound, hreq]
    simp
  · intro homit hknown hin
    rcases run.declared_or_entered hin with hdeclared | hentered
    · exact hdeclared
    · have hmem := run.entered_required hknown hlen ha hentered
      rw [place.requiredAt, hreq, homit] at hmem
      cases hmem

end Once

/-- In every workflow inside a workflow, the inputs of tools that are not provided are bound unless
they may be left out. -/
theorem compile_binds_required {set : Setting} {path : String} {yml : Doc} {graph : Graph}
    {r : Compiled} (hinfer : set.options.noInference = false)
    (h : (compile set (.root path yml graph)).Yields r)
    (hinsert : set.options.insertSteps = true → Unaltered r.tree (path, yml)) :
    ∀ is w, subAt (path, yml) is = some w → ∃ q, r.tree.at? is = some q ∧
      q.BindsRequired set w := by
  have hun : Unaltered r.tree (path, yml) := by
    cases hno : set.options.insertSteps with
    | false => exact compile_unaltered hno h
    | true => exact hinsert hno
  obtain ⟨s, hs, rfl⟩ := h.of_map
  intro is w hw
  obtain ⟨m, u, q, -, ⟨run⟩, rfl, hat⟩ := Faithful.atPath ⟨hs, hun⟩ hw
  exact ⟨q.tree, hat, run.bindsRequired hinfer⟩

namespace Sample

def number (dflt : Int) : Doc := Doc.obj [("type", .str "int"), ("default", .int dflt)]

def countTool : StepId × Tool := tool "count" [("n", number 0), ("k", number 5)] [("o", file)]

def counting : Doc := workflow [inner "sub.wic" (workflow [step "count" []])]

end Sample

open Sample in
theorem compile_binds_required_zero :
    ∃ r q, (compile (setting [countTool]) (.root "wf.wic" counting (Graph.empty "" ""))).Yields r ∧
      r.tree.at? [0] = some q ∧
      q.BindsRequired (setting [countTool]) ("sub.wic", workflow [step "count" []]) ∧
      (q.bindingAt 0 "n").isSome = true ∧ (q.bindingAt 0 "k").isSome = false := by
  have hbound : (compiled (setting [countTool]) "wf.wic" counting).any (fun r =>
    (r.tree.at? [0]).any fun q =>
      (q.bindingAt 0 "n").isSome && !(q.bindingAt 0 "k").isSome) = true := by decide +kernel
  obtain ⟨r, hr, hbound⟩ := Logged.yields_of_any hbound
  obtain ⟨q, hq, hbinds⟩ := compile_binds_required rfl hr (fun h => absurd h (by decide)) [0] _ rfl
  rw [hq, Option.any_some, Bool.and_eq_true, Bool.not_eq_true'] at hbound
  exact ⟨r, q, hr, hq, hbinds, hbound⟩

end WorkflowInference.Compile
