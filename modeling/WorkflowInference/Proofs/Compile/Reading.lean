import WorkflowInference.Proofs.Compile.Inferred

/-!
What a step says, read off the source: which of its inputs refer to a named output, and for which of
them it gives values.
-/
namespace WorkflowInference.Compile

open Entries List Option
open Yaml (aliasKey inlineKey)

/-- What a step is given: a step that runs a tool speaks for itself; for a step that is a workflow,
what is given at its place and in its annotation is merged. -/
def statedStep (yml : Doc) (i : Nat) : Doc :=
  let step := (opened yml).elim .null fun o => o.steps.getD i .null
  if Workflow.isSubKey ((keysIn yml).getD i "") then
    ((givenStep step (noteOf yml i)).toOption).getD .null else step

section Step

variable {set : Setting} {run : OnceRun sub set t r} {i : Nat}
  {d e : Draft}

theorem StepIn.brought_step (here : StepIn run i d e) (hun : Unaltered r.tree t.flow) :
    here.head.brought.step i = statedStep t.yml i := by
  rw [statedStep, here.keys_getD, run.opened, elim_some, ← (here.note_eq hun).1, ← here.awaits.step]
  rcases here.head.brought_cases with ⟨⟨inner⟩⟩ | ⟨⟨tool⟩⟩
  · rw [if_pos inner.isSub, inner.giving, inner.step_eq]
    rfl
  · rw [if_neg (by simp [tool.isTool]), tool.brought]
    rfl

end Step

/-- What an input of a step refers to. No reference is made by inputs that tell a step where to find
things, by inputs that are no parameters of the tool's own, and where a value is given that is
written as one text. -/
def referenceAt (yml : Doc) (i : Nat) (a : String) : Option Doc :=
  if isAuxiliary a || ((keysIn yml).getD i "" == interpreterKey && pathInputs.contains a) then none
  else (get? (bindings (statedStep yml i)) a).bind fun v =>
    if encodedArgs.contains a && (under? v inlineKey).isSome then none else under? v aliasKey

variable {a : String}

theorem referenceAt_eq_some (h : referenceAt yml i a = some x) :
    isAuxiliary a = false ∧ ((keysIn yml).getD i "" = interpreterKey → a ∉ pathInputs) ∧
      ∃ v, get? (bindings (statedStep yml i)) a = some v ∧ encoded a v = .ok v ∧
      under? v aliasKey = some x := by
  unfold referenceAt at h
  split at h
  · cases h
  · rename_i hno
    obtain ⟨v, hv, h⟩ := bind_eq_some_iff.mp h
    split at h
    · cases h
    · rename_i hplain
      refine ⟨by simp_all, by simp_all, v, hv, ?_, h⟩
      unfold encoded
      split
      · simp_all
      · rfl

def AsSaid (yml : Doc) (i : Nat) (step : Doc) : Prop :=
  ∀ a v w, get? (bindings step) a = some v → encoded a v = .ok w → isAuxiliary a = false →
    (∀ x, under? w aliasKey = some x → referenceAt yml i a = some x) ∧
      ((under? w inlineKey).isSome → under? w aliasKey = none → referenceAt yml i a = none)

section Said

variable {yml : Doc} {i : Nat} {d e : Draft}

theorem AsSaid.congr (h : AsSaid yml i s) (hs : bindings s' = bindings s) : AsSaid yml i s' := by
  intro a v w hv
  rw [hs] at hv
  exact h a v w hv

theorem AsSaid.bind (h : AsSaid yml i (d.step i)) (hin : d.HasIn i)
    (hsteps : e.steps = (d.bind i arg v).steps) (halias : under? v aliasKey = none)
    (hinline : under? v inlineKey = none) : AsSaid yml i (e.step i) := by
  intro a u w hu henc haux
  rw [Draft.bindings_of_bind hin hsteps, get?_put] at hu
  split at hu
  · cases hu
    cases encoded_eq henc hinline
    simp [halias, hinline]
  · exact h a u w hu henc haux

theorem asSaid_stated (hv : get? (bindings (statedStep yml i)) a = some v)
    (henc : encoded a v = .ok w) (haux : isAuxiliary a = false)
    (hpath : (keysIn yml).getD i "" = interpreterKey → a ∉ pathInputs) :
    (∀ x, under? w aliasKey = some x → referenceAt yml i a = some x) ∧
      ((under? w inlineKey).isSome → under? w aliasKey = none → referenceAt yml i a = none) := by
  have hno : (isAuxiliary a ||
      ((keysIn yml).getD i "" == interpreterKey && pathInputs.contains a)) = false := by
    rw [haux, Bool.false_or, Bool.and_eq_false_imp]
    intro hkey
    simpa using hpath (eq_of_beq hkey)
  have href : referenceAt yml i a =
      if encodedArgs.contains a && (under? v inlineKey).isSome then none
      else under? v aliasKey := by
    rw [referenceAt, if_neg (by rw [hno]; exact Bool.false_ne_true), hv, bind_some]
  rw [href]
  unfold encoded at henc
  split at henc
  · rename_i val harg hval
    obtain ⟨text, -, rfl⟩ := Result.of_map henc
    rw [harg, hval]
    simp [Doc.obj, get?, aliasKey, inlineKey]
  · rename_i hplain
    cases henc
    rw [if_neg ?_]
    · exact ⟨fun x hx => hx, fun _ hnone => hnone⟩
    · intro hboth
      obtain ⟨harg, hval⟩ := Bool.and_eq_true_iff.mp hboth
      obtain ⟨val, hval⟩ := isSome_iff_exists.mp hval
      exact hplain val harg hval

end Said

section Step

variable {set : Setting} {run : OnceRun sub set t r} {i : Nat}
  {d e : Draft}

theorem StepIn.named_said (here : StepIn run i d e) (hun : Unaltered r.tree t.flow) :
    AsSaid t.yml i (here.head.named.step i) := by
  have hprepared : AsSaid t.yml i (here.head.prepared.step i) := by
    intro a v w hv henc haux
    rcases here.head.prepared_tags with ⟨hkey, tags, rfl, hbindings, -⟩ | ⟨hkey, hbindings, -⟩
    · by_cases hpath : a ∈ pathInputs
      · -- what is told to the step stands in the place of what it says
        have hnone : referenceAt t.yml i a = none := by
          rw [referenceAt, if_pos]
          rw [here.keys_getD, hkey]
          simp [interpreterKey, hpath]
        have hval : ∃ s, v = Doc.obj [(inlineKey, .str s)] := by
          simp only [pathInputs, mem_cons, not_mem_nil, or_false] at hpath
          simp only [hbindings, setTags, foldl_cons, foldl_nil, get?_put] at hv
          rcases hpath with rfl | rfl | rfl <;> simp at hv <;> exact ⟨_, hv.symm⟩
        obtain ⟨s, rfl⟩ := hval
        refine ⟨fun x hx => ?_, fun _ _ => hnone⟩
        have := encoded_alias henc hx
        simp [Doc.obj, get?, inlineKey, aliasKey] at this
      · have hne := hpath
        simp only [pathInputs, mem_cons, not_mem_nil, or_false, not_or] at hne
        simp only [hbindings, setTags, foldl_cons, foldl_nil, get?_put] at hv
        rw [if_neg (Ne.symm hne.2.2), if_neg (Ne.symm hne.2.1), if_neg (Ne.symm hne.1),
          here.brought_step hun] at hv
        exact asSaid_stated hv henc haux fun _ => hpath
    · rw [hbindings, here.brought_step hun] at hv
      refine asSaid_stated hv henc haux fun heq => absurd ?_ hkey
      rw [← here.keys_getD, heq]
      rfl
  refine AsSaid.congr ?_ here.head.named_bindings
  exact here.head.owned_keeps (P := fun x => AsSaid t.yml i (x.step i)) (fun _ _ _ hin _ hx =>
    hx.bind hin rfl rfl rfl) hprepared

theorem Taken.binds_said (h : Taken c s d arg val e) :
    ∃ v, e.steps = (d.bind s.index arg v).steps ∧ under? v aliasKey = none ∧
      under? v inlineKey = none := by
  cases h with
  | raw _ halias hinline => exact ⟨_, rfl, halias, hinline⟩
  | _ => exact ⟨_, rfl, rfl, rfl⟩

theorem StepIn.taken_said (here : StepIn run i d e) (hun : Unaltered r.tree t.flow) :
    Chain (fun k x y => ∃ arg val f, k = .str arg ∧ Taken run.scope here.head.site x arg val f ∧
      y.core = f.core ∧
      (isAuxiliary arg = false →
          (∀ u, under? val aliasKey = some u → referenceAt t.yml i arg = some u) ∧
        ((under? val inlineKey).isSome → under? val aliasKey = none →
          referenceAt t.yml i arg = none)))
      here.head.provided here.head.named here.head.taken := by
  have hchain := here.head.taken_chain.with_inv (P := fun x => AsSaid t.yml i (x.step i)) ?_
    (here.named_said hun)
  · refine hchain.imp ?_
    rintro k x y ⟨-, hx, -, arg, val, val', f, rfl, hval, henc, hf, hcore, -⟩
    exact ⟨arg, val', f, rfl, hf, hcore, hx arg val val' hval henc⟩
  · rintro k - x y hx ⟨hin, arg, val, val', f, rfl, hval, henc, hf, hcore, -⟩
    obtain ⟨v, hv, halias, hinline⟩ := hf.binds_said
    exact hx.bind hin ((Draft.steps_of_core hcore).trans hv) halias hinline

end Step

end WorkflowInference.Compile
