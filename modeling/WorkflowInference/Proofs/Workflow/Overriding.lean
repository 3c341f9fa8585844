import WorkflowInference.Proofs.Merging
import WorkflowInference.Workflow.Tree

/-!
Inputs of tool steps that the workflows around them override. Merging lays what each workflow says
about an input over what the workflows inside of it say, and all of it over what the step says
itself. The outermost value therefore stands in the end when it replaces what it is laid over; two
maps do not replace one another, they are merged.
-/
namespace WorkflowInference

open Entries Result
open List hiding find? getD

variable {yml x v outer w wic : Doc} {i n : Nat} {key : String}

theorem Result.getElem?_mapIdxM {α β : Type} {f : Nat → α → Result β} {as : List α} {bs : List β}
    (h : as.mapIdxM f = .ok bs) :
    bs.length = as.length ∧ ∀ i a, as[i]? = some a → ∃ b, bs[i]? = some b ∧ f i a = .ok b := by
  have hgo : ∀ (as : List α) (acc : Array β) (bs : List β), mapIdxM.go f as acc = .ok bs →
      ∃ cs, bs = acc.toList ++ cs ∧ cs.length = as.length ∧
        ∀ i a, as[i]? = some a → ∃ b, cs[i]? = some b ∧ f (acc.size + i) a = .ok b := by
    intro as
    induction as with
    | nil =>
      intro acc bs h
      rw [mapIdxM.go, pure_eq_ok] at h
      exact ⟨[], by simp [h], rfl, by simp⟩
    | cons a as ih =>
      intro acc bs h
      rw [mapIdxM.go] at h
      obtain ⟨b, hb, h⟩ := of_bind h
      obtain ⟨cs, hbs, hlen, hall⟩ := ih _ _ h
      refine ⟨b :: cs, by simp [hbs], by simp [hlen], ?_⟩
      rintro (_ | i) x hx
      · cases hx
        exact ⟨b, rfl, hb⟩
      · obtain ⟨c, hc, hfc⟩ := hall i x hx
        refine ⟨c, hc, ?_⟩
        rwa [Array.size_push, Nat.add_right_comm, Nat.add_assoc] at hfc
  obtain ⟨cs, hbs, hlen, hall⟩ := hgo as #[] bs h
  have hcs : bs = cs := by simpa using hbs
  subst hcs
  refine ⟨hlen, fun i a ha => ?_⟩
  obtain ⟨b, hb, hfb⟩ := hall i a ha
  exact ⟨b, hb, by simpa using hfb⟩

namespace Workflow

open Compile (under? field_eq_ok fieldD_eq_ok entries_eq_ok)
open Doc (find? atop oneEach)

variable {t r : Tree}

/-! Ways from a workflow to a tool step inside of it. -/

/-- How a tool step is reached: through steps that are workflows, and through implementations. -/
inductive Way where
  | tool (i : Nat) (key : String)
  | sub (i : Nat) (key : String) (rest : Way)
  | impl (name : Doc) (rest : Way)

def stepIn (yml : Doc) (i : Nat) (key : String) : Option Doc :=
  (((under? yml "steps").bind Doc.list?).bind (·[i]?)).filter fun s => (stepKey s).str? = some key

def subIn (yml : Doc) (i : Nat) (key : String) : Option Doc :=
  (stepIn yml i key).bind (under? · "subtree")

def implIn (yml name : Doc) : Option Doc :=
  ((find? ["wic", "implementations"] yml).bind Doc.map?).bind (at? · name)

namespace Way

def step? : Way → Doc → Option Doc
  | tool i key, yml => if isSubKey key then none else stepIn yml i key
  | sub i key rest, yml => if isSubKey key then (subIn yml i key).bind rest.step? else none
  | impl name rest, yml => (implIn yml name).bind rest.step?

/-- Where the annotation of a workflow speaks of the step. Implementations have the annotations of
the workflow around the one that they implement. -/
def path : Way → List String
  | tool i key => ["wic", "steps", placeKey i key]
  | sub i key rest => ["wic", "steps", placeKey i key] ++ rest.path
  | impl _ rest => rest.path

def layers (k : String) : Way → Doc → List (Option Doc)
  | tool i key, yml => [find? ((tool i key).path ++ ["in", k]) yml]
  | sub i key rest, yml =>
    find? ((sub i key rest).path ++ ["in", k]) yml :: (subIn yml i key).elim [] (rest.layers k)
  | impl name rest, yml => (implIn yml name).elim [] (rest.layers k)

def crossings : Way → List (List String)
  | tool _ _ => [["wic", "implementations"]]
  | sub i key rest =>
    ["wic", "implementations"] :: rest.crossings.map (["wic", "steps", placeKey i key] ++ ·)
  | impl _ rest => ["wic", "implementations"] :: rest.crossings

def Silent (w : Way) (note : Doc) : Prop := ∀ p ∈ w.crossings, find? p note = none

instance (w : Way) (note : Doc) : Decidable (w.Silent note) :=
  decidable_of_iff (∀ p ∈ w.crossings, (find? p note).isNone) (by simp [Silent])

/-- A workflow on the way has implementations just where the way goes through one of them, and these
are its own. -/
def Quiet : Way → Doc → Prop
  | tool i key, yml => (tool i key).Silent yml
  | sub i key rest, yml => (sub i key rest).Silent yml ∧ (subIn yml i key).elim True rest.Quiet
  | impl name rest, yml => (implIn yml name).elim True rest.Quiet

instance decidableQuiet : (w : Way) → (yml : Doc) → Decidable (w.Quiet yml)
  | tool i key, yml => inferInstanceAs (Decidable ((tool i key).Silent yml))
  | sub i key rest, yml =>
    have : Decidable ((subIn yml i key).elim True rest.Quiet) :=
      match subIn yml i key with
      | none => .isTrue trivial
      | some v => decidableQuiet rest v
    inferInstanceAs
      (Decidable ((sub i key rest).Silent yml ∧ (subIn yml i key).elim True rest.Quiet))
  | impl name rest, yml =>
    show Decidable ((implIn yml name).elim True rest.Quiet) from
      match implIn yml name with
      | none => .isTrue trivial
      | some v => decidableQuiet rest v

end Way

/-! One level of merging. -/

theorem steps_zip (h : Tree.steps yml = .ok ps) (hxs : under? yml "steps" = some (.list xs)) :
    ∃ names, ps = xs.zip names ∧ xs.map stepKey = names.map .str := by
  unfold Tree.steps at h
  obtain ⟨s, hs, h⟩ := of_bind h
  rw [field_eq_ok, hxs] at hs
  cases hs
  obtain ⟨xs', hxs', h⟩ := of_bind h
  cases hxs'
  obtain ⟨subs, -, names, hnames, h⟩ := of_bind₂ h
  exact ⟨names, (pure_eq_ok.mp h).symm, Compile.names_eq_ok hnames⟩

theorem steps_eq_ok (h : Tree.steps yml = .ok ps)
    (hxs : under? yml "steps" = some (.list xs)) (hx : xs[i]? = some x) :
    ∃ key, stepKey x = .str key ∧ ps[i]? = some (x, key) := by
  obtain ⟨names, rfl, hnames⟩ := steps_zip h hxs
  have hkeys := congrArg (·[i]?) hnames
  rw [getElem?_map, getElem?_map, hx] at hkeys
  obtain ⟨key, hkey, hstep⟩ := Option.map_eq_some_iff.mp hkeys.symm
  exact ⟨key, hstep.symm, getElem?_zip_eq_some.mpr ⟨hx, hkey⟩⟩

def Laid (yml outer wic : Doc) : Prop :=
  ∀ k ks, atop (find? ("wic" :: k :: ks) yml) (find? ("wic" :: k :: ks) outer) =
    .ok (find? (k :: ks) wic)

def noteIn (wic : Doc) (i : Nat) (key : String) : Doc :=
  (find? ["steps", placeKey i key] wic).getD (.map [])

theorem find?_noteIn (wic : Doc) (i : Nat) (key : String) (k : String) (ks : List String) :
    find? (k :: ks) (noteIn wic i key) = find? ("steps" :: placeKey i key :: k :: ks) wic :=
  Doc.find?_getD ["steps", placeKey i key] k ks wic

/-- What becomes of a step: a workflow takes the annotation on top, a tool step its inputs. -/
def StepMerged (n : Nat) (space : String) (note : Doc) (key : String) (step step' : Doc) : Prop :=
  stepKey step' = stepKey step ∧ if isSubKey key then ∃ yml s, under? step "subtree" = some yml ∧
    mergeIn n ⟨⟨key, space⟩, yml⟩ note = .ok s ∧ under? step' "subtree" = some s.yml
    else ∀ k, atop (find? ["in", k] step) (find? ["in", k] note) = .ok (find? ["in", k] step')

inductive Level (n : Nat) (t : Tree) (outer : Doc) (r : Tree) (wic : Doc) : Prop
  | impls {impls impls' : Entries} (found : find? ["implementations"] wic = some (.map impls))
      (result : find? ["wic", "implementations"] r.yml = some (.map impls'))
      (each : List.Forall₂ (fun e e' => e'.1 = e.1 ∧
        ∃ s : Tree, mergeIn n ⟨Tree.implId e.1, e.2⟩ outer = .ok s ∧ e'.2 = s.yml) impls impls')
  | steps {ys : List Doc} (none : find? ["implementations"] wic = none)
      (result : under? r.yml "steps" = some (.list ys))
      (each : ∀ xs, under? t.yml "steps" = some (.list xs) → ∀ (i : Nat) x, xs[i]? = some x →
        ∃ key y, stepKey x = .str key ∧ ys[i]? = some y ∧
          StepMerged n t.id.space (noteIn wic i key) key x y)

theorem stepKey_put (h : k ≠ "id") : stepKey (.map (put es k v)) = stepKey (.map es) := by
  simp only [stepKey, getD, get?_put_ne h]

def bareNote (own : Bool) (note : Doc) : Doc :=
  match note with
  | .map es => if own then .map (remove es "wic") else note
  | _ => note

theorem find?_bareNote (own : Bool) (note : Doc) (ks : List String) :
    find? ("in" :: ks) (bareNote own note) = find? ("in" :: ks) note := by
  unfold bareNote
  split
  · split
    · simp only [find?, Compile.under?_map, get?_remove_ne (show "wic" ≠ "in" by decide)]
    · rfl
  · rfl

theorem oneEach_bareNote (h : oneEach note) : oneEach (bareNote own note) := by
  unfold bareNote
  split
  · split
    · simp only [oneEach] at h ⊢
      exact Doc.oneEach_remove h
    · exact h
  · exact h

theorem mergeIn_step (hnote : oneEach note)
    (h : (if isSubKey key then do
        let sub ← mergeIn n ⟨⟨key, space⟩, ← step.field "subtree"⟩ note
        return Doc.map (put (← step.entries) "subtree" sub.yml)
      else do
        let own ← note.holds "wic"
        let id ← requireId "step" step
        let merged ← step.merge (bareNote own note)
        return Doc.map (put (← merged.entries) "id" (.str id)) : Result Doc) = .ok step') :
    StepMerged n space note key step step' := by
  unfold StepMerged
  split at h
  · rename_i hsub
    obtain ⟨yml, hyml, s, hs, es, hes, h⟩ := of_bind₃ h
    rw [← pure_eq_ok.mp h, if_pos hsub]
    cases entries_eq_ok.mp hes
    exact ⟨stepKey_put (by decide), yml, s, field_eq_ok.mp hyml, hs, by simp⟩
  · rename_i hsub
    obtain ⟨own, -, id, hid, h⟩ := of_bind₂ h
    obtain ⟨merged, hmerged, es, hes, h⟩ := of_bind₂ h
    rw [← pure_eq_ok.mp h, if_neg hsub]
    cases entries_eq_ok.mp hes
    refine ⟨?_, fun k => ?_⟩
    · rw [Compile.stepKey_eq (Compile.requireId_eq_ok hid).1]
      simp [stepKey, getD]
    · have hlaid := Doc.find?_merge (oneEach_bareNote hnote) hmerged "in" [k]
      have hid : find? ["in", k] (.map (put es "id" (.str id))) = find? ["in", k] (.map es) := by
        simp only [find?, Compile.under?_map, get?_put_ne (show "id" ≠ "in" by decide)]
      rw [find?_bareNote] at hlaid
      rw [hid, hlaid]

theorem find?_tag (hw : w = (under? yml "wic").getD (.map [])) (k : String) (ks : List String) :
    find? ("wic" :: k :: ks) (Doc.obj [("wic", w)]) = find? ("wic" :: k :: ks) yml := by
  rw [hw]
  cases hyml : under? yml "wic" <;> simp [find?, Doc.obj, get?, hyml]

theorem laid_of_merge {all : Doc} (houter : oneEach outer)
    (hw : w = (under? yml "wic").getD (.map []))
    (hall : (Doc.obj [("wic", w)]).merge outer = .ok all) (hwic : under? all "wic" = some wic) :
    Laid yml outer wic := by
  intro k ks
  have hfind : find? ("wic" :: k :: ks) all = find? (k :: ks) wic := by
    rw [find?, hwic, Option.bind_some]
  rw [← find?_tag hw, ← hfind]
  exact Doc.find?_merge houter hall "wic" (k :: ks)

theorem implementations?_eq_ok (h : Tree.implementations? wic = .ok impls?) :
    find? ["implementations"] wic = impls?.map .map := by
  rw [Doc.find?_singleton]
  unfold Tree.implementations? at h
  obtain ⟨held, hheld, h⟩ := of_bind h
  split at h
  · obtain ⟨d, hd, es, hes, h⟩ := of_bind₂ h
    rw [entries_eq_ok] at hes
    subst hes
    rw [← pure_eq_ok.mp h, field_eq_ok.mp hd]
    rfl
  · rename_i hno
    rw [← pure_eq_ok.mp h]
    cases wic with
    | map es =>
      have hhas : has es "implementations" = held := Except.ok.inj hheld
      simpa [has, hno] using hhas
    | _ => rfl

theorem setImplementations_eq_ok (h : Tree.setImplementations yml impls = .ok yml') :
    find? ["wic", "implementations"] yml' = some (.map impls) := by
  obtain ⟨es, -, h⟩ := of_bind h
  obtain ⟨ws, -, rfl⟩ := of_map h
  simp [find?]

theorem mergeIn_level (hone : oneEach t.yml) (houter : oneEach outer)
    (h : mergeIn (n + 1) t outer = .ok r) :
    ∃ wic, oneEach wic ∧ Laid t.yml outer wic ∧ Level n t outer r wic := by
  unfold mergeIn at h
  obtain ⟨w, hw, all, hall, wic, hwic, h⟩ := of_bind₃ h
  obtain ⟨es, hes, notes, hnotes, impls?, himpls?, h⟩ := of_bind₃ h
  rw [field_eq_ok] at hwic
  rw [entries_eq_ok] at hes
  have hw' := fieldD_eq_ok hw
  have hwone : oneEach w := by
    rw [hw']
    cases hyml : under? t.yml "wic" with
    | none => rfl
    | some v => exact Doc.oneEach_under? hone hyml
  have hallone : oneEach all :=
    Doc.mergeable_oneEach.merge
      (by simp [Doc.obj, oneEach, Doc.oneEachEntries, Doc.str?, has, get?, hwone]) houter hall
  have hwicone := Doc.oneEach_under? hallone hwic
  refine ⟨wic, hwicone, laid_of_merge houter hw' hall hwic, ?_⟩
  have hfound := implementations?_eq_ok himpls?
  cases impls? with
  | some impls =>
    obtain ⟨impls', himpls', h⟩ := of_bind h
    obtain ⟨yml, hyml, rfl⟩ := of_map h
    refine .impls hfound (setImplementations_eq_ok hyml) ((mapM_eq_ok himpls').imp ?_)
    intro e e' he
    obtain ⟨s, hs, rfl⟩ := of_map he
    exact ⟨rfl, s, hs, rfl⟩
  | none =>
    obtain ⟨xs, hxs, ys, hys, h⟩ := of_bind₂ h
    obtain ⟨yml, hyml, rfl⟩ := of_map h
    have hresult : under? yml "steps" = some (.list ys) := by
      obtain ⟨es', -, rfl⟩ := of_map hyml
      simp
    refine .steps hfound hresult fun ds hds i x hx => ?_
    have hds' : under? (.map (put es "wic" wic)) "steps" = some (.list ds) := by
      rw [Compile.under?_map, get?_put_ne (by decide), ← Compile.under?_map, ← hes, hds]
    obtain ⟨key, hkey, hat⟩ := steps_eq_ok hxs hds' hx
    obtain ⟨y, hy, hmerged⟩ := (getElem?_mapIdxM hys).2 i _ hat
    obtain ⟨note, hnote, hmerged⟩ := of_bind hmerged
    have hsame : note = noteIn wic i key := by
      rw [fieldD_eq_ok hnote, fieldD_eq_ok hnotes, noteIn]
      cases hsteps : under? wic "steps" <;> simp [find?, hsteps]
    subst hsame
    exact ⟨key, y, hkey, hy, mergeIn_step (Doc.oneEach_getD hwicone _) hmerged⟩

/-! Merging along a way. -/

def lay (outer inner : Option Doc) : Result (Option Doc) := atop inner outer

theorem stepIn_eq_some : stepIn yml i key = some x ↔
    ∃ xs, under? yml "steps" = some (.list xs) ∧ xs[i]? = some x ∧ stepKey x = .str key := by
  unfold stepIn
  rw [Option.filter_eq_some_iff, Option.bind_eq_some_iff, decide_eq_true_eq]
  constructor
  · rintro ⟨⟨xs, hxs, hx⟩, hkey⟩
    obtain ⟨d, hd, hlist⟩ := Option.bind_eq_some_iff.mp hxs
    refine ⟨xs, ?_, hx, ?_⟩
    · cases d <;> simp_all [Doc.list?]
    · cases hstep : stepKey x <;> simp_all [Doc.str?]
  · rintro ⟨xs, hxs, hx, hkey⟩
    exact ⟨⟨xs, by rw [hxs]; rfl, hx⟩, by rw [hkey]; rfl⟩

theorem oneEach_stepIn (h : oneEach yml) (hx : stepIn yml i key = some x) : oneEach x := by
  obtain ⟨xs, hxs, hx, -⟩ := stepIn_eq_some.mp hx
  have hlist := Doc.oneEach_under? h hxs
  simp only [oneEach] at hlist
  exact Doc.oneEach_of_item hlist (mem_of_getElem? hx)

theorem Level.step (h : Level n t outer r wic) (hnone : find? ["implementations"] wic = none)
    (hx : stepIn t.yml i key = some x) :
    ∃ y, stepIn r.yml i key = some y ∧ StepMerged n t.id.space (noteIn wic i key) key x y := by
  cases h with
  | impls found =>
    rw [found] at hnone
    cases hnone
  | steps _ result each =>
    obtain ⟨xs, hxs, hx, hkey⟩ := stepIn_eq_some.mp hx
    obtain ⟨key', y, hkey', hy, hmerged⟩ := each xs hxs i x hx
    rw [hkey] at hkey'
    cases hkey'
    exact ⟨y, stepIn_eq_some.mpr ⟨_, result, hy, hmerged.1.trans hkey⟩, hmerged⟩

theorem at?_of_forall₂ {R : Doc → Doc → Prop}
    (h : List.Forall₂ (fun e f => f.1 = e.1 ∧ R e.2 f.2) es fs) (hv : at? es k = some v) :
    ∃ w, at? fs k = some w ∧ R v w := by
  induction h with
  | nil => cases hv
  | @cons e f es fs hef _ ih =>
    obtain ⟨l, x⟩ := e
    obtain ⟨m, y⟩ := f
    obtain ⟨rfl, hR⟩ := hef
    simp only [at?] at hv ⊢
    split at hv
    · rename_i heq
      cases hv
      exact ⟨y, if_pos heq, hR⟩
    · rename_i hne
      rw [if_neg hne]
      exact ih hv

theorem Level.impl (h : Level n t outer r wic) (hlaid : Laid t.yml outer wic)
    (hnone : find? ["wic", "implementations"] outer = none) (hyml : implIn t.yml name = some yml) :
    ∃ id s, mergeIn n ⟨id, yml⟩ outer = .ok s ∧ implIn r.yml name = some s.yml := by
  obtain ⟨impls, himpls, hyml⟩ := Option.bind_eq_some_iff.mp hyml
  obtain ⟨d, hd, himpls⟩ := Option.bind_eq_some_iff.mp himpls
  -- the annotation from around names no implementations, so these are the workflow's own
  have hfound := hlaid "implementations" []
  rw [hd, hnone, Doc.atop_none_right, Except.ok.injEq] at hfound
  cases h with
  | steps none =>
    rw [none] at hfound
    cases hfound
  | @impls impls₁ impls₂ found result each =>
    rw [found, Option.some.injEq] at hfound
    subst hfound
    cases himpls
    obtain ⟨_, hw, id, s, hs, rfl⟩ :=
      at?_of_forall₂ (R := fun y z => ∃ id s, mergeIn n ⟨id, y⟩ outer = .ok s ∧ z = s.yml)
      (each.imp fun e f ⟨hkey, s, hs, hf⟩ => ⟨hkey, _, s, hs, hf⟩) hyml
    exact ⟨id, s, hs, by simp [implIn, result, Doc.map?, hw]⟩

theorem Laid.none (h : Laid yml outer wic) (hyml : find? ("wic" :: k :: ks) yml = none)
    (houter : find? ("wic" :: k :: ks) outer = none) : find? (k :: ks) wic = none := by
  have hlaid := h k ks
  rw [hyml, houter] at hlaid
  exact (Except.ok.inj hlaid).symm

theorem oneEach_implIn (h : oneEach yml) (hv : implIn yml name = some v) : oneEach v := by
  obtain ⟨impls, himpls, hv⟩ := Option.bind_eq_some_iff.mp hv
  obtain ⟨d, hd, himpls⟩ := Option.bind_eq_some_iff.mp himpls
  have hone := Doc.oneEach_find? h hd
  cases d with
  | map es =>
    cases himpls
    simp only [oneEach] at hone
    obtain ⟨k, hk, -⟩ := mem_of_at? hv
    exact Doc.oneEach_of_mem hone hk
  | _ => cases himpls

theorem Way.crossings_cons (w : Way) (hp : p ∈ w.crossings) : ∃ k ks, p = k :: ks := by
  induction w generalizing p with
  | tool i key =>
    cases mem_singleton.mp hp
    exact ⟨_, _, rfl⟩
  | sub i key rest _ =>
    rcases mem_cons.mp hp with rfl | hp
    · exact ⟨_, _, rfl⟩
    · obtain ⟨q, -, rfl⟩ := mem_map.mp hp
      exact ⟨_, _, rfl⟩
  | impl name rest ih =>
    rcases mem_cons.mp hp with rfl | hp
    · exact ⟨_, _, rfl⟩
    · exact ih hp

theorem Way.path_cons (w : Way) : ∃ k ks, w.path = k :: ks := by
  induction w with
  | tool i key => exact ⟨_, _, rfl⟩
  | sub i key rest _ => exact ⟨_, _, rfl⟩
  | impl name rest ih => exact ih

theorem mergeIn_layers {way : Way} {step : Doc} (k : String) (hone : oneEach t.yml)
    (houter : oneEach outer) (h : mergeIn n t outer = .ok r) (hstep : way.step? t.yml = some step)
    (hquiet : way.Quiet t.yml) (hsilent : way.Silent outer) :
    ∃ step', way.step? r.yml = some step' ∧
      (way.layers k t.yml ++ [find? ["in", k] step]).foldlM lay
      (find? (way.path ++ ["in", k]) outer) = .ok (find? ["in", k] step') := by
  induction way generalizing n t r outer with
  | tool i key =>
    cases n with
    | zero => cases h
    | succ n =>
      obtain ⟨wic, -, hlaid, hlevel⟩ := mergeIn_level hone houter h
      simp only [Way.step?, Option.ite_none_left_eq_some] at hstep
      obtain ⟨hkey, hstep⟩ := hstep
      have hnone := hlaid.none (hquiet _ mem_cons_self) (hsilent _ mem_cons_self)
      obtain ⟨step', hstep', -, hmerged⟩ := hlevel.step hnone hstep
      rw [if_neg hkey] at hmerged
      refine ⟨step', by simp [Way.step?, hkey, hstep'], ?_⟩
      have hnote := hlaid "steps" [placeKey i key, "in", k]
      rw [← find?_noteIn] at hnote
      simp only [Way.layers, Way.path, cons_append, nil_append, foldlM_cons, foldlM_nil, lay, hnote]
      simp [bind, Except.bind, hmerged k, pure, Except.pure]
  | sub i key rest ih =>
    cases n with
    | zero => cases h
    | succ n =>
      obtain ⟨wic, hwic, hlaid, hlevel⟩ := mergeIn_level hone houter h
      simp only [Way.step?, Option.ite_none_right_eq_some] at hstep
      obtain ⟨hkey, hstep⟩ := hstep
      obtain ⟨yml, hyml, hstep⟩ := Option.bind_eq_some_iff.mp hstep
      obtain ⟨x, hx, hsubtree⟩ := Option.bind_eq_some_iff.mp hyml
      obtain ⟨hquiet, hinner⟩ := hquiet
      have hnone := hlaid.none (hquiet _ mem_cons_self) (hsilent _ mem_cons_self)
      obtain ⟨y, hy, -, hmerged⟩ := hlevel.step hnone hx
      rw [if_pos hkey] at hmerged
      obtain ⟨yml', s, hyml', hs, hy'⟩ := hmerged
      rw [hsubtree] at hyml'
      cases hyml'
      have hymlone := Doc.oneEach_under? (oneEach_stepIn hone hx) hsubtree
      have hinner' : rest.Quiet yml := by simpa [hyml] using hinner
      have hnoteSilent : rest.Silent (noteIn wic i key) := by
        intro p hp
        have hmem : ["wic", "steps", placeKey i key] ++ p ∈ (Way.sub i key rest).crossings :=
          mem_cons_of_mem _ (mem_map_of_mem hp)
        obtain ⟨p₁, ps, rfl⟩ := rest.crossings_cons hp
        rw [find?_noteIn]
        exact hlaid.none (hquiet _ hmem) (hsilent _ hmem)
      obtain ⟨step', hstep', hfold⟩ :=
        ih hymlone (Doc.oneEach_getD hwic _) hs hstep hinner' hnoteSilent
      have hsub' : subIn r.yml i key = some s.yml := by simp [subIn, hy, hy']
      refine ⟨step', by simp [Way.step?, hkey, hsub', hstep'], ?_⟩
      have hnote := hlaid "steps" (placeKey i key :: (rest.path ++ ["in", k]))
      obtain ⟨p₁, ps, hpath⟩ := rest.path_cons
      have hread : find? ("steps" :: placeKey i key :: (rest.path ++ ["in", k])) wic =
          find? (rest.path ++ ["in", k]) (noteIn wic i key) := by
        rw [hpath, cons_append, find?_noteIn]
      rw [hread] at hnote
      simp only [Way.layers, Way.path, hyml, Option.elim_some, cons_append, nil_append,
        foldlM_cons, lay, hnote]
      exact hfold
  | impl name rest ih =>
    cases n with
    | zero => cases h
    | succ n =>
      obtain ⟨wic, hwic, hlaid, hlevel⟩ := mergeIn_level hone houter h
      obtain ⟨yml, hyml, hstep⟩ := Option.bind_eq_some_iff.mp hstep
      obtain ⟨id, s, hs, hyml'⟩ := hlevel.impl hlaid (hsilent _ mem_cons_self) hyml
      have hinner : rest.Quiet yml := by simpa [Way.Quiet, hyml] using hquiet
      have hymlone : oneEach yml := oneEach_implIn hone hyml
      obtain ⟨step', hstep', hfold⟩ := ih hymlone houter hs hstep hinner
        fun p hp => hsilent p (mem_cons_of_mem _ hp)
      refine ⟨step', by simp [Way.step?, hyml', hstep'], ?_⟩
      simpa [Way.layers, Way.path, hyml] using hfold

/-- Laid over the other value, this one takes its place: it is no map, or each has one key, the
same, and what stands there is no map. -/
def Supersedes (v u : Doc) : Prop :=
  v.isMap = false ∨ ∃ tag p q, v = Doc.obj [(tag, p)] ∧ u = Doc.obj [(tag, q)] ∧ p.isMap = false

theorem mergeValue_of_not_map (hv : v.isMap = false) (h : Doc.mergeValue u v = .ok w) : w = v := by
  cases v with
  | map es => cases hv
  | _ =>
    simp only [Doc.mergeValue] at h
    split at h
    · exact (Except.ok.inj h).symm
    · cases h

theorem Supersedes.mergeValue (hvu : Supersedes v u) (h : Doc.mergeValue u v = .ok w) : w = v := by
  rcases hvu with hv | ⟨tag, p, q, rfl, rfl, hp⟩
  · exact mergeValue_of_not_map hv h
  · simp only [Doc.obj, map_cons, map_nil, Doc.mergeValue, Doc.mergeEntries, at?_str, get?,
      if_true, write_str, put] at h
    cases hpq : Doc.mergeValue q p with
    | error e => simp [hpq] at h
    | ok z =>
      rw [hpq, mergeValue_of_not_map hp hpq] at h
      exact (Except.ok.inj h).symm

theorem foldlM_lay_none {us vs : List (Option Doc)} (hus : ∀ u ∈ us, u = none) :
    (us ++ vs).foldlM lay none = vs.foldlM lay none := by
  induction us with
  | nil => rfl
  | cons u us ih =>
    rw [hus u mem_cons_self, cons_append, foldlM_cons, lay, Doc.atop_none_right]
    exact ih fun x hx => hus x (mem_cons_of_mem _ hx)

theorem foldlM_lay_superseding {us : List (Option Doc)} {z : Option Doc}
    (hus : ∀ u, some u ∈ us → Supersedes v u) (h : us.foldlM lay (some v) = .ok z) :
    z = some v := by
  induction us with
  | nil => exact (pure_eq_ok.mp h).symm
  | cons u us ih =>
    rw [foldlM_cons] at h
    obtain ⟨y, hy, h⟩ := of_bind h
    have hkept : y = some v := by
      cases u with
      | none => exact (Except.ok.inj hy).symm
      | some u =>
        rw [lay, atop] at hy
        cases hm : Doc.mergeValue u v with
        | error e => simp [hm, Except.map] at hy
        | ok w =>
          rw [hm] at hy
          rw [← (hus u mem_cons_self).mergeValue hm]
          exact (Except.ok.inj hy).symm
    subst hkept
    exact ih (fun x hx => hus x (mem_cons_of_mem _ hx)) h

/-- A tool step ends up with all values that are given for an input laid over one another, the
outermost on top: with its own value when no workflow around gives one, and with the outermost one
when that supersedes the others. -/
theorem merge_overrides {t r : Tree} {way : Way} {step : Doc} (h : t.merge (.map []) = .ok r)
    (hone : oneEach t.yml = true) (hstep : way.step? t.yml = some step) (hquiet : way.Quiet t.yml)
    (k : String) :
    ∃ step', way.step? r.yml = some step' ∧
      (way.layers k t.yml ++ [find? ["in", k] step]).foldlM lay none = .ok (find? ["in", k] step') ∧
      ((∀ u ∈ way.layers k t.yml, u = none) → find? ["in", k] step' = find? ["in", k] step) ∧
      ∀ us v vs, way.layers k t.yml = us ++ some v :: vs → (∀ u ∈ us, u = none) →
        (∀ u, some u ∈ vs ++ [find? ["in", k] step] → Supersedes v u) →
        find? ["in", k] step' = some v := by
  have hsilent : way.Silent (.map []) := by
    intro p hp
    obtain ⟨l, ls, rfl⟩ := way.crossings_cons hp
    rfl
  obtain ⟨step', hstep', hfold⟩ := mergeIn_layers k hone rfl h hstep hquiet hsilent
  have houter : find? (way.path ++ ["in", k]) (.map []) = none := by
    obtain ⟨l, ls, hpath⟩ := way.path_cons
    rw [hpath]
    rfl
  rw [houter] at hfold
  refine ⟨step', hstep', hfold, fun hnone => ?_, fun us v vs hlayers hus hvs => ?_⟩
  · rw [foldlM_lay_none hnone, List.foldlM_cons, lay, Doc.atop_none_right] at hfold
    exact (Result.pure_eq_ok.mp hfold).symm
  · rw [hlayers, List.append_assoc, foldlM_lay_none hus, List.cons_append, List.foldlM_cons, lay,
      Doc.atop_none_right] at hfold
    exact foldlM_lay_superseding hvs hfold

namespace Sample

def noted (i : Nat) (key : String) (note : Doc) : Doc :=
  Doc.obj [("steps", Doc.obj [(placeKey i key, note)])]

def inputs (v : Doc) : Doc := Doc.obj [("in", Doc.obj [("m", v)])]

def nested (outer inner own : Doc) : Tree :=
  let cat := Doc.obj [("id", .str "cat"), ("in", Doc.obj [("m", own)])]
  let sub := Doc.obj [("wic", noted 0 "cat" (inputs inner)), ("steps", .list [cat])]
  let step := Doc.obj [("id", .str "sub.wic"), ("subtree", sub), ("parentargs", .map [])]
  ⟨⟨"wf", globalSpace⟩, Doc.obj [("wic",
    noted 0 "sub.wic" (Doc.obj [("wic", noted 0 "cat" (inputs outer))])), ("steps", .list [step])]⟩

def toCat : Way := .sub 0 "sub.wic" (.tool 0 "cat")

def value (v : String) : Doc := Doc.obj [(Yaml.inlineKey, .str v)]

end Sample

open Sample in
theorem merge_overrides_nested :
    ((nested (value "z") (value "y") (value "x")).merge (.map [])).toOption.isSome = true ∧
      ∀ r, (nested (value "z") (value "y") (value "x")).merge (.map []) = .ok r →
        ∃ step', toCat.step? r.yml = some step' ∧ find? ["in", "m"] step' = some (value "z") := by
  refine ⟨by decide +kernel, fun r hr => ?_⟩
  obtain ⟨step', hstep', -, -, houtermost⟩ :=
    @merge_overrides _ _ toCat _ hr rfl rfl (by decide) "m"
  refine ⟨step', hstep', houtermost [] _ [some (value "y")] rfl (by simp) ?_⟩
  rintro u hu
  rcases List.mem_cons.mp hu with hu | hu
  · exact .inr ⟨_, _, _, rfl, Option.some.inj hu, rfl⟩
  · exact .inr ⟨_, _, _, rfl, Option.some.inj (List.mem_singleton.mp hu), rfl⟩

end Workflow

end WorkflowInference
