import WorkflowInference.Proofs.Compile.Paths

/-!
Values that are given in a workflow, and the inputs that it declares. A value is given under the
name of an input, and the workflow declares that input; a workflow around it declares an input of
its own for it, unless the step at which it stands binds the input to something that is no value.
Then the value is still handed on, and no input takes it.
-/
namespace WorkflowInference.Compile

open Entries Result Logged Namespaces Option Draft
open Yaml (aliasKey inlineKey)

def Rebound (yml : Doc) (i : Nat) (a : String) : Prop :=
  isAuxiliary a = false ∧ ∃ v, get? (bindings (statedStep yml i)) a = some v ∧
    ((under? v aliasKey).isSome ∨ under? v inlineKey = none)

/-- The names of values that are given inside of a workflow for an input that a step around binds to
something else. -/
inductive Superseded (set : Setting) : String × Doc → String → Prop
  | here {w v : String × Doc} {i : Nat} {a : String} (hv : innerAt w.2 i = some v)
      (ha : Rebound w.2 i a) : Superseded set w (nameOf set w i ++ sep ++ a)
  | inside {w v : String × Doc} {i : Nat} {k : String} (hv : innerAt w.2 i = some v)
      (hk : Superseded set v k) : Superseded set w (nameOf set w i ++ sep ++ k)

/-- Each value in the table is given for an input that is declared, or that falls under the
exception. -/
def Answered (except : String → Prop) (inputs given : Entries) : Prop :=
  ∀ e ∈ given, ∃ k, e.1 = .str k ∧ (has inputs k ∨ except k)

section Inputs

variable {except : String → Prop} {inputs given : Entries}

theorem Answered.declare (h : Answered except inputs given) (k : String) (sig : Doc) :
    Answered except (put inputs k sig) given := by
  intro e he
  obtain ⟨l, hl, hin⟩ := h e he
  refine ⟨l, hl, hin.imp_left fun hin => ?_⟩
  rw [has_put, hin, Bool.or_true]

theorem Answered.give (h : Answered except inputs given) (hk : has inputs k) (v : Doc) :
    Answered except inputs (put given k v) := by
  intro e he
  rcases mem_put he with he | rfl
  · exact h e he
  · exact ⟨k, rfl, .inl hk⟩

variable {c : Scope} {s : Site} {provided : List Doc} {referred : List String} {d e : Draft}
  {arg : String} {val : Doc}

theorem Answered.taken (hd : Answered except d.inputs d.given) (h : Taken c s d arg val e) :
    Answered except e.inputs e.given := by
  have hdeclared : ∀ sig, has (put d.inputs (s.inName arg) sig) (s.inName arg) :=
    fun sig => by simp [has_put]
  cases h with
  | auxiliary => exact (hd.declare _ _).give (hdeclared _) _
  | unresolved => exact hd.declare _ _
  | deferred => exact hd.declare _ _
  | resolved => exact hd
  | value => exact (hd.declare _ _).give (hdeclared _) _
  | raw => exact hd

theorem Answered.supplied (hd : Answered except d.inputs d.given)
    (h : Supplied c s provided referred d arg e) : Answered except e.inputs e.given := by
  cases h with
  | provided => exact hd
  | left => exact hd
  | given => exact hd.declare _ _
  | passedOn => exact hd.declare _ _
  | resolved => exact hd
  | inferred => exact hd
  | raised => exact hd.declare _ _

theorem Taken.declares (h : Taken c s d arg val e)
    (hval : isAuxiliary arg = false → (under? val inlineKey).isSome ∧ under? val aliasKey = none) :
    has e.inputs (s.inName arg) := by
  have hdeclared : ∀ sig, has (put d.inputs (s.inName arg) sig) (s.inName arg) :=
    fun sig => by simp [has_put]
  cases h with
  | auxiliary => exact hdeclared _
  | unresolved => exact hdeclared _
  | deferred => exact hdeclared _
  | resolved haux htarget => simp [(hval haux).2] at htarget
  | value => exact hdeclared _
  | raw haux _ hnone =>
    have hsome := (hval haux).1
    rw [hnone] at hsome
    cases hsome

theorem Supplied.declares (h : Supplied c s provided referred d arg e)
    (hgiven : has d.given (s.inName arg)) (hprov : provided.any (· == .str arg) = false) :
    has e.inputs (s.inName arg) := by
  cases h with
  | given =>
    change has (put d.inputs (s.inName arg) _) (s.inName arg)
    simp [has_put]
  | provided h => simp [h] at hprov
  | passedOn _ h => simp [h] at hgiven
  | resolved _ h => simp [h] at hgiven
  | left _ _ _ h => simp [h] at hgiven
  | inferred _ h => simp [h] at hgiven
  | raised _ h => simp [h] at hgiven

end Inputs

section Step

variable {set : Setting}

theorem addOwnNames_of_not_map (h : addOwnNames i args d = .ok d')
    (hin : ∀ es, under? (d.step i) "in" ≠ some (.map es)) : d' = d := by
  apply (foldlM_eq_ok h).keeps (P := fun x => x = d) _ rfl
  rintro arg - x y rfl hy
  obtain ⟨held, -, hy⟩ := of_bind hy
  split at hy
  · exact (pure_eq_ok.mp hy).symm
  · obtain ⟨⟨es, hes⟩, -⟩ := setIn_eq_ok hy
    exact absurd hes (hin es)

theorem StepRun.prepared_binding (run : StepRun sub c i key d e)
    (ha : .str a ∈ run.provided) : ∃ v, get? (bindings (run.prepared.step i)) a = some v := by
  have hmap : ∃ es, run.ins = .map es := by
    by_contra hno
    have hnot : ∀ es, under? (run.prepared.step i) "in" ≠ some (.map es) := by
      intro es hes
      rw [run.ins_eq] at hes
      exact hno ⟨es, some.inj hes⟩
    have howned : run.owned = run.prepared := by
      have h := run.owning
      split at h
      · exact addOwnNames_of_not_map h hnot
      · exact (Except.ok.inj h).symm
    obtain ⟨fs, hfs, hnamed⟩ := run.named_step
    obtain ⟨k, ks, hks⟩ := List.exists_cons_of_ne_nil (List.ne_nil_of_mem ha)
    have htaking := run.taking
    rw [hks] at htaking
    cases htaking with
    | cons head _ =>
      obtain ⟨ins, hins, head⟩ := head.of_bind
      obtain ⟨val, hval, -⟩ := head.of_bind
      rw [yields_lift] at hins hval
      rw [elim_eq_ok] at hval
      obtain ⟨es, hes, -⟩ := bind_eq_some_iff.mp hval
      have hin : under? (run.prepared.step i) "in" = some ins := by
        rw [← howned, ← hnamed "in" (by decide), ← under?_map, ← hfs]
        exact field_eq_ok.mp hins
      refine hnot es (hin.trans ?_)
      cases ins <;> simp_all [Doc.map?]
  obtain ⟨es, hes⟩ := hmap
  have hbindings : bindings (run.prepared.step i) = es := by
    rw [bindings, run.ins_eq, hes]
    rfl
  have hmembers := run.members_eq
  rw [hes] at hmembers
  have hhas : has es a := by
    rw [has_iff_mem, ← keys]
    rw [← Except.ok.inj hmembers] at ha
    exact ha
  rw [hbindings]
  exact isSome_iff_exists.mp hhas

variable {run : OnceRun sub set t r} {i : Nat} {d e : Draft}

theorem StepIn.declared_or_rebound (here : StepIn run i d e) (hun : Unaltered r.tree t.flow)
    (hsub : Workflow.isSubKey here.key) (ha : a ∈ here.head.required)
    (hgiven : has here.head.brought.given (here.head.site.inName a)) :
    has e.inputs (here.head.site.inName a) ∨ Rebound t.yml i a := by
  have hkey : here.key ≠ interpreterKey := by
    intro hkey
    rw [hkey] at hsub
    exact absurd hsub (by decide)
  cases hv : get? (bindings (statedStep t.yml i)) a with
  | some v =>
    by_cases hre : Rebound t.yml i a
    · exact .inr hre
    have hvalue : isAuxiliary a = false → (under? v inlineKey).isSome ∧
        under? v aliasKey = none := by
      intro haux
      refine ⟨?_, ?_⟩
      · by_contra hnone
        exact hre ⟨haux, v, hv, .inr (by simpa using hnone)⟩
      · by_contra hsome
        exact hre ⟨haux, v, hv, .inl (isSome_iff_ne_none.mpr hsome)⟩
    rw [← here.brought_step hun] at hv
    obtain ⟨hprov, hnamed⟩ := here.head.named_binding hv fun h => absurd h hkey
    obtain ⟨first⟩ := here.head.firstTake hprov hnamed
    obtain ⟨arg, val, val', f, harg, hval, henc, hf, hcore, -⟩ := provide_taken first.taking
    cases harg
    cases hval.symm.trans first.value
    refine .inl (first.inputs _ ?_)
    rw [inputs_of_core hcore]
    refine hf.declares fun haux => ⟨encoded_inline henc (hvalue haux).1, ?_⟩
    by_contra hsome
    obtain ⟨x, hx⟩ := ne_none_iff_exists'.mp hsome
    have halias := encoded_alias henc hx
    rw [(hvalue haux).2] at halias
    cases halias
  | none =>
    have hprov : here.head.provided.any (· == .str a) = false := by
      refine not_any_of_not_mem fun hk => ?_
      obtain ⟨v, hbound⟩ := here.head.prepared_binding hk
      rcases here.head.prepared_tags with ⟨hint, -⟩ | ⟨-, hbindings, -⟩
      · exact hkey hint
      · rw [hbindings, here.brought_step hun, hv] at hbound
        cases hbound
    have htaken : has here.head.taken.given (here.head.site.inName a) :=
      ((here.head.prepared_frame.trans here.head.owned_frame).trans
        (here.head.named_frame.trans here.head.taken_frame)).given _ hgiven
    obtain ⟨last⟩ := here.head.lastSupply (P := fun x => has x.given (here.head.site.inName a))
      (fun b _ x y hx hs => hs.frame.given _ hx) htaken ha
    exact .inl (last.frame.inputs _ (last.supplied.declares last.holds hprov))

def Pending (here : StepIn run i d e) (k : String) : Prop :=
  has here.head.brought.given k ∧
    ∃ (inner : SubRun here.head) (a : String), k = here.head.site.inName a ∧
    inner.result.tree.IsInput (.str a)

def InnerAnswered (here : StepIn run i d e) : Prop :=
  ∀ inner : SubRun here.head, ∀ x ∈ inner.result.env.given, ∃ k, x.1 = .str k ∧
    (inner.result.tree.IsInput (.str k) ∨ Superseded set (here.key, inner.yml) k)

theorem StepIn.brought_answered (here : StepIn run i d e)
    (hd : Answered (Superseded set t.flow) d.inputs d.given) (hinner : InnerAnswered here) :
    Answered (fun k => Superseded set t.flow k ∨ Pending here k) here.head.brought.inputs
      here.head.brought.given := by
  intro x hx
  have hold : ∀ y ∈ d.given, ∃ k, y.1 = .str k ∧ (has here.head.brought.inputs k ∨
      Superseded set t.flow k ∨ Pending here k) := by
    intro y hy
    obtain ⟨k, hk, hin | hsuper⟩ := hd y hy
    · exact ⟨k, hk, .inl (here.head.brought_frame.inputs k hin)⟩
    · exact ⟨k, hk, .inr (.inl hsuper)⟩
  rcases here.head.brought_cases with ⟨⟨inner⟩⟩ | ⟨⟨tool⟩⟩
  · have hgiven := given_of_core inner.brought
    have hx' := hx
    rw [hgiven] at hx
    have hstr : ∀ f ∈ inner.result.env.given.map fun g =>
        ((Doc.str (here.head.site.name ++ sep ++ g.1.text), g.2) : Doc × Doc),
        ∃ k, f.1 = .str (here.head.site.inName k) ∧
          (inner.result.tree.IsInput (.str k) ∨ Superseded set (here.key, inner.yml) k) := by
      intro f hf
      obtain ⟨g, hg, rfl⟩ := List.mem_map.mp hf
      obtain ⟨k, hk, hin⟩ := hinner inner g hg
      refine ⟨k, ?_, hin⟩
      rw [hk]
      rfl
    rcases mem_update_of_str (fun f hf => (hstr f hf).elim fun k h => ⟨_, h.1⟩) hx with hx | hx
    · exact hold x hx
    · obtain ⟨k, hk, hin | hsuper⟩ := hstr x hx
      · refine ⟨_, hk, .inr (.inr ⟨?_, inner, k, rfl, hin⟩)⟩
        exact has_of_mem (v := x.2) (by rw [← hk]; exact hx')
      · refine ⟨_, hk, .inr (.inl ?_)⟩
        rw [Site.inName, here.site_nameOf]
        exact .inside (here.inner_spec inner).1 hsuper
  · rw [tool.brought] at hx
    exact hold x hx

theorem StepIn.bound_answered (here : StepIn run i d e) {except : String → Prop}
    (h : Answered except here.head.brought.inputs here.head.brought.given) :
    Answered except here.head.bound.inputs here.head.bound.given := by
  have hnamed : Answered except here.head.named.inputs here.head.named.given := by
    obtain ⟨-, fs, calls, hprepared, -⟩ := prepare_spec here.head.preparing
    obtain ⟨-, -, -, hinputs, hgiven⟩ := here.head.named_spec
    rw [hinputs, hgiven, hprepared]
    exact h
  have htaken : Answered except here.head.taken.inputs here.head.taken.given := by
    apply here.head.taken_chain.keeps (P := fun x => Answered except x.inputs x.given) _ hnamed
    rintro k - x y hx ⟨-, arg, val, val', f, -, -, -, hf, hcore, -⟩
    rw [inputs_of_core hcore, given_of_core hcore]
    exact hx.taken hf
  apply here.head.bound_chain.keeps (P := fun x => Answered except x.inputs x.given) _ htaken
  rintro arg - x y hx ⟨-, f, hf, hcore, -⟩
  rw [inputs_of_core hcore, given_of_core hcore]
  exact hx.supplied hf

theorem StepIn.answered (here : StepIn run i d e) (hun : Unaltered r.tree t.flow)
    (hcls : ∀ inner : SubRun here.head,
      under? inner.result.tree.part.cwl "class" = some (.str "Workflow"))
    (hinner : InnerAnswered here) (hd : Answered (Superseded set t.flow) d.inputs d.given) :
    Answered (Superseded set t.flow) e.inputs e.given := by
  obtain ⟨outs, sigs, -, -, s, hlast, -⟩ := here.head.closed_spec
  have hgiven : e.given = here.head.bound.given := (congrArg given hlast :)
  intro x hx
  rw [hgiven] at hx
  obtain ⟨k, hk, hin | hsuper | ⟨hhas, inner, a, rfl, ha⟩⟩ :=
    here.bound_answered (here.brought_answered hd hinner) x hx
  · exact ⟨k, hk, .inl (here.head.last_frame.inputs k hin)⟩
  · exact ⟨k, hk, .inr hsuper⟩
  · refine ⟨_, hk, ?_⟩
    have hreq := inner.mem_required (hcls inner) ha
    refine (here.declared_or_rebound hun inner.isSub hreq hhas).imp_right fun hre => ?_
    rw [Site.inName, here.site_nameOf]
    exact .here (here.inner_spec inner).1 hre

end Step

section Nested

variable {set : Setting} {n : Nat} {t : Task} {r : Compiled}

theorem OnceRun.jobInputs_given {sub : Compiler} (run : OnceRun sub set t r)
    (he : e ∈ r.tree.part.jobInputs) : ∃ f ∈ r.env.given, f.1 = e.1 := by
  obtain ⟨concl⟩ := run.concluded
  obtain ⟨f, hf, hkey, -⟩ := (jobInputs_spec concl.job).source e he
  exact ⟨f, concl.given ▸ hf, hkey⟩

theorem OnceRun.answered (run : OnceRun (compileAt set n) set t r) (hun : Unaltered r.tree t.flow)
    (hinner : ∀ {u s}, Faithful set n u s → ∀ x ∈ s.env.given, ∃ k, x.1 = .str k ∧
      (s.tree.IsInput (.str k) ∨ Superseded set u.flow k)) :
    Answered (Superseded set t.flow) run.last.inputs run.last.given := by
  apply run.keeps_steps (P := fun _ d => Answered (Superseded set t.flow) d.inputs d.given) _
    (by simp [Answered, Draft.start])
  intro j d e here hd
  exact here.answered hun (fun inner => (here.inner_faithful hun inner).cls)
    (fun inner => hinner (here.inner_faithful hun inner)) hd

theorem Faithful.given (h : Faithful set n t r) :
    ∀ x ∈ r.env.given, ∃ k, x.1 = .str k ∧ (r.tree.IsInput (.str k) ∨ Superseded set t.flow k) := by
  induction h using Faithful.induction with
  | step h run ih =>
    obtain ⟨concl⟩ := run.concluded
    intro x hx
    rw [concl.given] at hx
    obtain ⟨k, hk, hin⟩ := run.answered h.kept ih x hx
    exact ⟨k, hk, hin.imp_left fun hin => run.isInput (.inr ⟨k, rfl, hin⟩)⟩

end Nested

/-- In every workflow inside a workflow, each job input is an input that the workflow declares, or
the value was given inside of a workflow that one of the steps is, and that step binds the input to
a text or a reference. -/
theorem compile_jobInputs {set : Setting} {path : String} {yml : Doc} {graph : Graph} {r : Compiled}
    (h : (compile set (.root path yml graph)).Yields r) (hun : Unaltered r.tree (path, yml)) :
    ∀ is w, subAt (path, yml) is = some w → ∃ q, r.tree.at? is = some q ∧
      ∀ e ∈ q.part.jobInputs, ∃ k, e.1 = .str k ∧ (q.IsInput (.str k) ∨ Superseded set w k) := by
  obtain ⟨s, hs, rfl⟩ := h.of_map
  intro is w hw
  obtain ⟨m, u, q, hq, ⟨run⟩, rfl, hat⟩ := Faithful.atPath ⟨hs, hun⟩ hw
  refine ⟨q.tree, hat, fun e he => ?_⟩
  obtain ⟨f, hf, hkey⟩ := run.jobInputs_given he
  obtain ⟨k, hk, hin⟩ := hq.given f hf
  exact ⟨k, hkey.symm.trans hk, hin⟩

namespace Sample

def overriding (ins : List (String × Doc)) : Doc :=
  Doc.obj [("inputs", Doc.obj [("v", text)]), ("steps", .list [step "sub.wic" [
    ("subtree", workflow [step "echo" [("in", Doc.obj [("m", inline "x")])]]),
      ("parentargs", Doc.obj [("in", Doc.obj ins)])]])]

end Sample

open Sample in
theorem compile_jobInputs_overriding :
    ∃ r, (compile (setting [echoTool]) (.root "wf.wic"
      (overriding [("sub__step__1__echo___m", inline "y")]) (Graph.empty "" ""))).Yields r ∧
      r.tree.part.jobInputs.length = 1 ∧ ∀ e ∈ r.tree.part.jobInputs, ∃ k, e.1 = .str k ∧
      (r.tree.IsInput (.str k) ∨ Superseded (setting [echoTool])
      ("wf.wic", overriding [("sub__step__1__echo___m", inline "y")]) k) := by
  have hsome : (compiled (setting [echoTool]) "wf.wic"
      (overriding [("sub__step__1__echo___m", inline "y")])).any
      (fun r => r.tree.part.jobInputs.length = 1) = true := by decide +kernel
  obtain ⟨r, hr, hlen⟩ := Logged.yields_of_any hsome
  obtain ⟨q, hq, hall⟩ := compile_jobInputs hr (compile_unaltered rfl hr) [] _ rfl
  cases hq
  exact ⟨r, hr, of_decide_eq_true hlen, hall⟩

end WorkflowInference.Compile
