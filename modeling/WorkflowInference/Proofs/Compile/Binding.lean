import WorkflowInference.Proofs.Compile.Draft

/-!
How an input of a step comes to its source. `Taken` lists what becomes of an input that the step
provides, `Supplied` what becomes of one that must be given; each case says what is written, and
under which condition.
-/
namespace WorkflowInference.Compile

open Entries Result Logged Namespaces Draft
open Yaml (anchorKey aliasKey inlineKey)

variable {c : Scope} {s : Site} {d d' : Draft} {arg name : String} {val sig : Doc}
  {provided : List Doc} {referred : List String} {i : Nat} {r : Draft × List StepId}

def defPath (site : EdgeSite) : Namespaces := site.path ++ (splitLast site.slot).1

def callPath (c : Scope) (s : Site) (arg : String) : Namespaces := c.path s ++ (splitLast arg).1

/-- Taking up an input that the step provides, drawings aside. -/
inductive Taken (c : Scope) (s : Site) (d : Draft) (arg : String) (val : Doc) : Draft → Prop
  | auxiliary {type : Doc} (haux : isAuxiliary arg) (htype : under? val "type" = some type) :
      Taken c s d arg val
        (((d.declare (s.inName arg) (Doc.obj [("type", type)])).give (s.inName arg)
          (Doc.obj [("type", type), ("value", val)])).bind s.index arg (source (s.inName arg)))
  | unresolved {target sig : Doc} {name : String} (haux : isAuxiliary arg = false)
      (htarget : under? val aliasKey = some target) (hname : edgeName target = .ok name)
      (hdef : d.edgeDefs.lookup name = none) :
      Taken c s d arg val
        (((d.declare (s.inName arg) sig).call (s.inName arg) ⟨c.path s, arg⟩).bind s.index arg
          (source (s.inName arg)))
  | deferred {target sig : Doc} {name : String} {site : EdgeSite} {a b : String} {rest : Namespaces}
      (haux : isAuxiliary arg = false) (htarget : under? val aliasKey = some target)
      (hname : edgeName target = .ok name) (hdef : d.edgeDefs.lookup name = some site)
      (htails : (partition (callPath c s arg) (defPath site)).2 = a :: b :: rest) :
      Taken c s d arg val
        (((d.declare (s.inName arg) sig).call (s.inName arg) site).bind s.index arg
          (source (s.inName arg)))
  | resolved {target : Doc} {name : String} {site : EdgeSite} {a text : String}
      (haux : isAuxiliary arg = false) (htarget : under? val aliasKey = some target)
      (hname : edgeName target = .ok name) (hdef : d.edgeDefs.lookup name = some site)
      (htails : (partition (callPath c s arg) (defPath site)).2 = [a])
      (htext : sourceText (partition (defPath site) (callPath c s arg)).2 site.slot = .ok text) :
      Taken c s d arg val (d.bind s.index arg (source text))
  | value {v sig : Doc} {es : Entries} (haux : isAuxiliary arg = false)
      (halias : under? val aliasKey = none) (hval : under? val inlineKey = some v)
      (hsig : givenSig (d.step s.index) arg sig = .ok es) :
      Taken c s d arg val
        (((d.declare (s.inName arg) (.map es)).give (s.inName arg) (.map (put es "value" v))).bind
          s.index arg (source (s.inName arg)))
  | raw {sig : Doc} {tree : Entries} (haux : isAuxiliary arg = false)
      (halias : under? val aliasKey = none) (hval : under? val inlineKey = none)
      (hknown : c.setting.options.allowRaw ∨ namesInput d val = .ok true)
      (htree : (if val.hashable then describe d.tree val sig else .ok d.tree) = .ok tree) :
      Taken c s d arg val ({ d with tree }.bind s.index arg val)

variable {site : EdgeSite} {out : String} {tool : Tool}

theorem giveAuxiliary_taken (haux : isAuxiliary arg) (h : giveAuxiliary s arg val d = .ok d') :
    Taken c s d arg val d' := by
  obtain ⟨type, htype, h⟩ := of_bind h
  obtain ⟨-, rfl⟩ := setIn_eq_ok h
  exact .auxiliary haux (field_eq_ok.mp htype)

theorem drawReference_draws (h : drawReference c s arg site p q d = .ok d') : d.Draws d' := by
  obtain ⟨own, -, ends, -, out, -, h⟩ := of_bind₃ h
  exact .onGraph (fun g => Graph.subset_foldl (fun _ _ => Graph.subset_addEdge) _ _) h

theorem refer_taken (haux : isAuxiliary arg = false) (htarget : under? val aliasKey = some target)
    (h : refer c s arg sig target d = .ok d') : ∃ e, Taken c s d arg val e ∧ e.Draws d' := by
  obtain ⟨name, hname, h⟩ := of_bind h
  split at h
  · rename_i hdef
    split at h
    · simp at h
    · obtain ⟨e, he, h⟩ := of_bind h
      obtain ⟨-, rfl⟩ := setIn_eq_ok he
      rw [← pure_eq_ok.mp h]
      exact ⟨_, .unresolved haux htarget hname hdef, .refl _⟩
  · rename_i site hdef
    obtain ⟨e, he, h⟩ := of_bind h
    refine ⟨e, ?_, drawReference_draws h⟩
    unfold bindReference at he
    split at he
    · split at he <;> simp at he
    · rename_i a htails
      obtain ⟨text, htext, he⟩ := of_bind he
      obtain ⟨-, rfl⟩ := setIn_eq_ok he
      exact .resolved haux htarget hname hdef htails htext
    · rename_i hnil hone
      obtain ⟨-, rfl⟩ := setIn_eq_ok he
      rcases htails : (partition (callPath c s arg) (defPath site)).2 with _ | ⟨a, _ | ⟨b, rest⟩⟩
      · exact absurd htails hnil
      · exact absurd htails (hone a)
      · exact .deferred haux htarget hname hdef htails

theorem drawValue_draws (h : drawValue c s arg d = .ok d') : d.Draws d' := by
  unfold drawValue at h
  split at h
  · obtain ⟨e, he, rfl⟩ := of_map h
    refine (Draft.Draws.addNode he).trans (.trans (.onOwn e fun g => ?_) (.onView ..))
    exact Graph.subset_addArrow (g := g.addLines _)
  · cases h
    exact .refl d

theorem giveValue_taken (haux : isAuxiliary arg = false) (halias : under? val aliasKey = none)
    (hval : under? val inlineKey = some v)
    (h : giveValue c s arg sig v d = .ok d') : ∃ e, Taken c s d arg val e ∧ e.Draws d' := by
  obtain ⟨es, hsig, e, he, h⟩ := of_bind₂ h
  obtain ⟨-, rfl⟩ := setIn_eq_ok he
  exact ⟨_, .value haux halias hval hsig, drawValue_draws h⟩

theorem leaveRaw_taken (haux : isAuxiliary arg = false) (halias : under? val aliasKey = none)
    (hval : under? val inlineKey = none)
    (h : (leaveRaw c s arg sig val d).Yields d') : ∃ e, Taken c s d arg val e ∧ e.Draws d' := by
  obtain ⟨known, hknown, h⟩ := h.of_lift
  split at h
  · obtain ⟨-, -, -, -, h⟩ := h.of_bind₂
    exact absurd h yields_throw
  · rename_i hallowed
    rw [yields_lift] at h
    obtain ⟨tree, htree, h⟩ := of_bind h
    obtain ⟨-, rfl⟩ := setIn_eq_ok h
    refine ⟨_, .raw haux halias hval ?_ htree, rfl, .of_eq rfl rfl⟩
    cases hraw : c.setting.options.allowRaw with
    | true => exact .inl rfl
    | false => exact .inr (by simpa [hraw, hknown] using hallowed)

theorem provideArg_taken (h : (provideArg c s arg val d).Yields d') :
    ∃ e, Taken c s d arg val e ∧ e.Draws d' := by
  unfold provideArg at h
  split at h
  · rename_i haux
    exact ⟨d', giveAuxiliary_taken haux (by simpa using h), .refl d'⟩
  · rename_i haux
    have haux : isAuxiliary arg = false := by simpa using haux
    obtain ⟨sig, -, h⟩ := h.of_bind
    split at h
    · rename_i target htarget
      exact refer_taken haux htarget (by simpa using h)
    · rename_i v halias hval
      exact giveValue_taken haux halias hval (by simpa using h)
    · rename_i halias hval
      exact leaveRaw_taken haux halias hval h

theorem provide_yields (h : (provide c s d k).Yields d') :
    ∃ arg val val', k = .str arg ∧ get? (bindings (d.step s.index)) arg = some val ∧
      encoded arg val = .ok val' ∧ (provideArg c s arg val' d).Yields d' := by
  obtain ⟨ins, hins, val, hval, known, -, h⟩ := h.of_bind₃
  rw [yields_lift] at hins hval
  rw [elim_eq_ok] at hval
  split at h
  · rename_i arg _
    obtain ⟨val', hval', h⟩ := h.of_bind
    refine ⟨arg, val, val', rfl, ?_, by simpa using hval', h⟩
    obtain ⟨es, hes, hval⟩ := Option.bind_eq_some_iff.mp hval
    rw [bindings, field_eq_ok.mp hins, Option.bind_some, hes, Option.getD_some, ← hval, at?_str]
  · exact absurd h yields_throw

section Encoded

variable {val' x : Doc} (h : encoded arg val = .ok val')

include h

theorem encoded_cases :
    val' = val ∨ (under? val inlineKey).isSome ∧
      ∃ text, val' = Doc.obj [(inlineKey, .str text)] := by
  unfold encoded at h
  split at h
  · rename_i hval
    obtain ⟨text, -, rfl⟩ := of_map h
    exact .inr ⟨by rw [hval]; rfl, text, rfl⟩
  · exact .inl (Except.ok.inj h).symm

theorem encoded_eq (hval : under? val inlineKey = none) : val' = val :=
  (encoded_cases h).resolve_right fun hno => by simp [hval] at hno

theorem encoded_inline (hval : (under? val inlineKey).isSome) : (under? val' inlineKey).isSome := by
  rcases encoded_cases h with rfl | ⟨-, text, rfl⟩
  · exact hval
  · rfl

theorem encoded_alias (hx : under? val' aliasKey = some x) : under? val aliasKey = some x := by
  rcases encoded_cases h with rfl | ⟨-, text, rfl⟩
  · exact hx
  · simp [Doc.obj, get?, inlineKey, aliasKey] at hx

end Encoded

theorem provide_taken (h : (provide c s d k).Yields d') :
    ∃ arg val val' e, k = .str arg ∧ get? (bindings (d.step s.index)) arg = some val ∧
      encoded arg val = .ok val' ∧ Taken c s d arg val' e ∧ e.Draws d' := by
  obtain ⟨arg, val, val', hk, hval, henc, h⟩ := provide_yields h
  obtain ⟨e, he, hdraws⟩ := provideArg_taken h
  exact ⟨arg, val, val', e, hk, hval, henc, he, hdraws⟩

/-- Supplying an input that must be given, drawings aside. -/
inductive Supplied (c : Scope) (s : Site) (provided : List Doc) (referred : List String) (d : Draft)
    (arg : String) : Draft → Prop
  | provided (h : provided.any (· == .str arg)) : Supplied c s provided referred d arg d
  | given {param sig : Doc} (hprov : provided.any (· == .str arg) = false)
      (hgiven : has d.given (s.inName arg)) (hparam : under? s.params arg = some param)
      (hsig : Param.signature param false = .ok sig) :
      Supplied c s provided referred d arg
        ((d.declare (s.inName arg) sig).bind s.index arg (.str (s.inName arg)))
  | passedOn {site : EdgeSite} {stems : List String} {param sig : Doc}
      (hprov : provided.any (· == .str arg) = false) (hgiven : has d.given (s.inName arg) = false)
      (hreferred : referred.contains arg) (hcall : d.edgeCalls.lookup arg = some site)
      (hstems : stemsOf (partition (callPath c s arg) (defPath site)).2 = .ok stems)
      (hinside : liesInside c.stem stems) (hparam : under? s.params arg = some param)
      (hsig : Param.signature param false = .ok sig) :
      Supplied c s provided referred d arg
        (((d.declare (s.inName arg) sig).bind s.index arg (source (s.inName arg))).call
          (s.inName arg) site)
  | resolved {site : EdgeSite} {stems : List String} {text : String}
      (hprov : provided.any (· == .str arg) = false) (hgiven : has d.given (s.inName arg) = false)
      (hreferred : referred.contains arg) (hcall : d.edgeCalls.lookup arg = some site)
      (hstems : stemsOf (partition (callPath c s arg) (defPath site)).2 = .ok stems)
      (hhere : liesInside c.stem stems = false)
      (htext : sourceText (partition (defPath site) (callPath c s arg)).2 site.slot = .ok text) :
      Supplied c s provided referred d arg (d.bind s.index arg (source text))
  | left (hprov : provided.any (· == .str arg) = false) (h : c.setting.options.noInference)
      (hnot : referred.contains arg = false ∨ d.edgeCalls.lookup arg = none)
      (hgiven : has d.given (s.inName arg) = false) : Supplied c s provided referred d arg d
  | inferred {sig : Entries} {w : Wanted} {j : Nat} {out : String} {seen : List (List Candidate)}
      (hprov : provided.any (· == .str arg) = false) (hgiven : has d.given (s.inName arg) = false)
      (hwanted : wantedOf (d.step s.index) s.tool.cwl arg = .ok (sig, w))
      (hfound : searchSteps c d w arg s.index = .ok (some (j, out), seen))
      (hnot : referred.contains arg = false ∨ d.edgeCalls.lookup arg = none)
      (hinfer : c.setting.options.noInference = false) :
      Supplied c s provided referred d arg
        (d.bind s.index arg (.str (stepName c.stem j (c.keys.getD j "") ++ "/" ++ out)))
  | raised {sig : Entries} {w : Wanted} {seen : List (List Candidate)}
      (hprov : provided.any (· == .str arg) = false) (hgiven : has d.given (s.inName arg) = false)
      (hwanted : wantedOf (d.step s.index) s.tool.cwl arg = .ok (sig, w))
      (hfound : searchSteps c d w arg s.index = .ok (none, seen))
      (hnot : referred.contains arg = false ∨ d.edgeCalls.lookup arg = none)
      (hinfer : c.setting.options.noInference = false) :
      Supplied c s provided referred d arg
        ((d.declare (stepName c.stem s.index (c.keys.getD s.index "") ++ sep ++ arg)
            (.map sig)).bind
          s.index arg (.str (stepName c.stem s.index (c.keys.getD s.index "") ++ sep ++ arg)))

theorem Supplied.of_not_called (h : Supplied c s provided referred d arg d')
    (hcall : Keyed.has d.edgeCalls arg = false) (hprov : provided.any (· == .str arg) = false)
    (hinfer : c.setting.options.noInference = false) :
    (has d.given (s.inName arg) ∧ d'.steps = (d.bind s.index arg (.str (s.inName arg))).steps) ∨
    ∃ sig w found seen, wantedOf (d.step s.index) s.tool.cwl arg = .ok (sig, w) ∧
      searchSteps c d w arg s.index = .ok (found, seen) ∧
      d' = found.elim ((d.declare (stepName c.stem s.index (c.keys.getD s.index "") ++ sep ++ arg)
            (.map sig)).bind
          s.index arg (.str (stepName c.stem s.index (c.keys.getD s.index "") ++ sep ++ arg)))
        fun x => d.bind s.index arg
          (.str (stepName c.stem x.1 (c.keys.getD x.1 "") ++ "/" ++ x.2)) := by
  cases h with
  | provided h => simp [h] at hprov
  | given _ hgiven => exact .inl ⟨hgiven, rfl⟩
  | passedOn _ _ _ h => simp [Keyed.has, h] at hcall
  | resolved _ _ _ h => simp [Keyed.has, h] at hcall
  | left _ h => simp [h] at hinfer
  | inferred _ _ hwanted hfound => exact .inr ⟨_, _, _, _, hwanted, hfound, rfl⟩
  | raised _ _ hwanted hfound => exact .inr ⟨_, _, _, _, hwanted, hfound, rfl⟩

theorem passReference_supplied (hprov : provided.any (· == .str arg) = false)
    (hgiven : has d.given (s.inName arg) = false) (hreferred : referred.contains arg)
    (hcall : d.edgeCalls.lookup arg = some site) (h : passReference c s arg site d = .ok d') :
    Supplied c s provided referred d arg d' := by
  obtain ⟨stems, hstems, held, -, h⟩ := of_bind₂ h
  split at h
  · simp at h
  split at h
  · rename_i hinside
    obtain ⟨sig, hsig, h⟩ := of_bind h
    obtain ⟨param, hparam, hsig⟩ := of_bind hsig
    obtain ⟨e, he, h⟩ := of_bind h
    obtain ⟨-, rfl⟩ := setIn_eq_ok he
    rw [← pure_eq_ok.mp h]
    exact .passedOn hprov hgiven hreferred hcall hstems hinside (field_eq_ok.mp hparam) hsig
  · rename_i hinside
    obtain ⟨text, htext, h⟩ := of_bind h
    obtain ⟨-, rfl⟩ := setIn_eq_ok h
    exact .resolved hprov hgiven hreferred hcall hstems (by simpa using hinside) htext

theorem drawInferred_draws (h : drawInferred c arg name here there out b d = .ok d') :
    d.Draws d' := by
  obtain ⟨own, -, ends, -, out, -, h⟩ := of_bind₃ h
  rw [← pure_eq_ok.mp h]
  exact .onOwn d fun g => Graph.subset_foldl (fun _ _ => Graph.subset_addEdge) _ _

theorem takeOutput_draws (hin : d.HasIn i) (h : takeOutput c i tool arg name j out d = .ok d') :
    (d.bind i arg (.str (stepName c.stem j (c.keys.getD j "") ++ "/" ++ out))).Draws d' := by
  obtain ⟨cls, -, step, hstep, h⟩ := of_bind₂ h
  have hstep := addIn_eq_ok hin hstep
  subst hstep
  have hdraws := drawInferred_draws h
  exact ⟨hdraws.core, hdraws.grows.graphs, hdraws.grows.siblings⟩

theorem bringUp_eq_ok {sig : Entries} (hin : d.HasIn i)
    (h : bringUp c i arg sig d = .ok d') :
    d' = (d.declare (stepName c.stem i (c.keys.getD i "") ++ sep ++ arg) (.map sig)).bind i arg
      (.str (stepName c.stem i (c.keys.getD i "") ++ sep ++ arg)) := by
  obtain ⟨step, hstep, h⟩ := of_bind h
  have hstep := addIn_eq_ok hin hstep
  subst hstep
  exact (pure_eq_ok.mp h).symm

theorem infer_cases (h : (infer c i tool arg name d).Yields r) :
    ∃ sig w found seen, wantedOf (d.step i) tool.cwl arg = .ok (sig, w) ∧
      searchSteps c d w arg i = .ok (found, seen) ∧
      ((∃ j out, found = some (j, out) ∧ takeOutput c i tool arg name j out d = .ok r.1) ∨
        found = none ∧ bringUp c i arg sig d = .ok r.1 ∧
          insertions c.setting.tools w.formats (seen.flatten.map (·.2)) = .ok r.2) := by
  obtain ⟨⟨sig, w⟩, hwanted, ⟨found, seen⟩, hfound, h⟩ := h.of_bind₂
  rw [yields_lift] at hwanted hfound
  refine ⟨sig, w, found, seen, hwanted, hfound, ?_⟩
  split at h
  · rename_i j out hj
    obtain ⟨e, he, h⟩ := h.of_bind
    rw [yields_pure] at h
    rw [yields_lift] at he
    subst h
    exact .inl ⟨j, out, hj, he⟩
  · rename_i hj
    obtain ⟨ids, hids, -, -, e, he, h⟩ := h.of_bind₃
    rw [yields_pure] at h
    rw [yields_lift] at he hids
    subst h
    exact .inr ⟨hj, he, hids⟩

theorem infer_supplied (hprov : provided.any (· == .str arg) = false)
    (hgiven : has d.given (s.inName arg) = false) (hin : d.HasIn s.index)
    (hnot : referred.contains arg = false ∨ d.edgeCalls.lookup arg = none)
    (hinfer : c.setting.options.noInference = false)
    (h : (infer c s.index s.tool arg (s.inName arg) d).Yields r) :
    ∃ e, Supplied c s provided referred d arg e ∧ e.Draws r.1 := by
  obtain ⟨sig, w, found, seen, hwanted, hfound, ⟨j, out, rfl, he⟩ | ⟨rfl, he, -⟩⟩ := infer_cases h
  · exact ⟨_, .inferred hprov hgiven hwanted hfound hnot hinfer, takeOutput_draws hin he⟩
  · rw [bringUp_eq_ok hin he]
    exact ⟨_, .raised hprov hgiven hwanted hfound hnot hinfer, .refl _⟩

theorem require_supplied (hin : d.HasIn s.index)
    (h : (require c s provided referred d arg).Yields r) :
    ∃ e, Supplied c s provided referred d arg e ∧ e.Draws r.1 := by
  unfold require at h
  dsimp only at h
  split at h
  · rename_i hprov
    rw [yields_pure] at h
    subst h
    exact ⟨d, .provided hprov, .refl d⟩
  rename_i hprov
  have hprov : provided.any (· == .str arg) = false := (Bool.not_eq_true _).mp hprov
  split at h
  · rename_i hgiven
    obtain ⟨sig, hsig, h⟩ := h.of_lift
    obtain ⟨param, hparam, hsig⟩ := of_bind hsig
    obtain ⟨step, hstep, h⟩ := h.of_lift
    have hstep := addIn_eq_ok hin hstep
    rw [yields_pure] at h
    subst hstep h
    exact ⟨_, .given hprov hgiven (field_eq_ok.mp hparam) hsig, .refl _⟩
  · rename_i hgiven
    have hgiven : has d.given (s.inName arg) = false := by simpa using hgiven
    split at h
    · rename_i site hreferred hcall
      obtain ⟨e, he, h⟩ := h.of_lift
      rw [yields_pure] at h
      subst h
      exact ⟨e, passReference_supplied hprov hgiven hreferred hcall he, .refl e⟩
    · rename_i hother
      have hnot : referred.contains arg = false ∨ d.edgeCalls.lookup arg = none := by
        cases hcall : d.edgeCalls.lookup arg with
        | none => exact .inr rfl
        | some site => exact .inl ((Bool.not_eq_true _).mp fun href => hother site href hcall)
      split at h
      · rename_i hno
        rw [yields_pure] at h
        subst h
        exact ⟨d, .left hprov hno hnot hgiven, .refl d⟩
      · rename_i hyes
        exact infer_supplied hprov hgiven hin hnot (by simpa using hyes) h

end WorkflowInference.Compile
