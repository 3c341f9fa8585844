import WorkflowInference.Proofs.Workflow.Annotations

/-!
Annotations follow their steps. Where a workflow is inlined, the steps around it are those that were
there and its own, each found at an address that tells where it stood before. The annotations are
moved to these addresses, in the workflow that takes the steps up and in all workflows around that
one.
-/
namespace WorkflowInference

open Entries Result
open List hiding find?

namespace Workflow

open Compile (under? field_eq_ok fieldD_eq_ok entries_eq_ok)
open Doc (find? atop oneEach oneEachEntries)

variable {yml sub u u' v note note' : Doc} {i j n : Nat} {k key : String} {a b q : Address}
  {ks : List String}

/-! Steps before and after. -/

namespace Address

@[simp] theorem origin_nil (n : Nat) (q : Address) : origin n q [] = [] := by
  unfold origin
  split <;> simp_all

theorem origin_prefix (hb : b <+: q.dropLast) : origin n q b = b := by
  induction q generalizing b with
  | nil =>
    obtain rfl := prefix_nil.mp hb
    rfl
  | cons s q ih =>
    cases b with
    | nil => exact origin_nil n _
    | cons s' b =>
      have hq : q ≠ [] := by
        rintro rfl
        cases prefix_nil.mp hb
      rw [dropLast_cons_of_ne_nil hq] at hb
      obtain ⟨rfl, hpre⟩ := cons_prefix_cons.mp hb
      rw [origin_cons hq, if_pos rfl, ih hpre]

theorem origin_injective (n : Nat) (q : Address) : Function.Injective (origin n q) := by
  intro b b' h
  induction q generalizing b b' with
  | nil => simpa [origin] using h
  | cons s q ih =>
    cases b with
    | nil =>
      rw [origin_nil] at h
      exact (not_imp_not.mp origin_ne_nil h.symm).symm
    | cons r b =>
      cases b' with
      | nil =>
        rw [origin_nil] at h
        exact absurd h (origin_ne_nil (cons_ne_nil r b))
      | cons r' b' =>
        by_cases hq : q = []
        · subst hq
          obtain ⟨i, k⟩ := s
          obtain ⟨j, key⟩ := r
          obtain ⟨j', key'⟩ := r'
          rw [origin_here, origin_here] at h
          split_ifs at h <;> simp only [cons.injEq, Prod.mk.injEq] at h ⊢ <;> grind
        · rw [origin_cons hq, origin_cons hq] at h
          split_ifs at h with hr hr' hr'
          · rw [hr, hr', ih (cons.inj h).2]
          · exact absurd (cons.inj h).1.symm hr'
          · exact absurd (cons.inj h).1 hr
          · exact h

theorem origin_ne (hq : q ≠ []) (n : Nat) (b : Address) : origin n q b ≠ q := by
  induction q generalizing b with
  | nil => exact absurd rfl hq
  | cons s q ih =>
    cases b with
    | nil =>
      rw [origin_nil]
      exact hq.symm
    | cons r b =>
      by_cases hnil : q = []
      · subst hnil
        obtain ⟨i, k⟩ := s
        obtain ⟨j, key⟩ := r
        rw [origin_here]
        split_ifs <;> simp <;> omega
      · rw [origin_cons hnil]
        split_ifs with hr
        · exact fun h => ih hnil b (cons.inj h).2
        · exact fun h => hr (cons.inj h).1

end Address

theorem steps_of_looks (h : (looks yml)[i]? = some (k, s)) :
    ∃ ps x, Tree.steps yml = .ok ps ∧ ps[i]? = some (x, k) ∧ under? x "subtree" = s := by
  rw [looks, getElem?_map] at h
  obtain ⟨⟨x, key⟩, hx, ⟨⟩⟩ := Option.map_eq_some_iff.mp h
  cases hps : Tree.steps yml with
  | error e =>
    rw [hps] at hx
    cases hx
  | ok ps =>
    rw [hps] at hx
    exact ⟨ps, x, rfl, hx, rfl⟩

theorem looks_of_steps (h : Tree.steps yml = .ok ps) : looks yml = ps.map look := by
  rw [looks, h]
  rfl

theorem runAt_congr (h : (looks u)[i]? = (looks v)[j]?) : runAt u i k = runAt v j k := by
  rw [runAt, runAt, h]

theorem hasStep_congr (h : (looks u)[i]? = (looks v)[j]?) :
    hasStep ((i, k) :: b) u = hasStep ((j, k) :: b) v := by
  cases b with
  | nil => rw [hasStep, hasStep, h]
  | cons s b => rw [hasStep_cons (by simp), hasStep_cons (by simp), runAt_congr h]

theorem hasStep_of_workflowAt (hb : b ≠ []) (hpre : b <+: q) (h : workflowAt q yml = some sub) :
    hasStep b yml := by
  induction b generalizing q yml with
  | nil => exact absurd rfl hb
  | cons s b ih =>
    obtain ⟨i, k⟩ := s
    obtain ⟨r, rfl⟩ := hpre
    obtain ⟨w, hw, h⟩ := Option.bind_eq_some_iff.mp h
    by_cases hnil : b = []
    · subst hnil
      exact hasStep_of_runAt hw
    · rw [hasStep_cons hnil, hw]
      exact ih hnil ⟨r, rfl⟩ h

section Here

variable (hlooks : looks u' = (looks u).take i ++ looks sub ++ (looks u).drop (i + 1))
  (hrun : runAt u i k = some sub) (hlen : (looks sub).length = n)

include hlooks hrun hlen

theorem looks_here (j : Nat) :
    (looks u')[j]? = if j < i then (looks u)[j]? else if j < i + n then (looks sub)[j - i]?
      else (looks u)[j + 1 - n]? := by
  have hi : i < (looks u).length := (List.getElem?_eq_some_iff.mp (runAt_eq_some.mp hrun).1).1
  have htake : ((looks u).take i).length = i := by rw [length_take]; omega
  rw [hlooks]
  split_ifs with hlt hwithin
  · rw [append_assoc, getElem?_append_left (by omega), getElem?_take_of_lt hlt]
  · rw [append_assoc, getElem?_append_right (by omega), getElem?_append_left (by omega), htake]
  · rw [getElem?_append_right (by rw [length_append]; omega), getElem?_drop, length_append,
      htake, hlen]
    congr 1
    omega

theorem hasStep_here (b : Address) : hasStep b u' = hasStep (Address.origin n [(i, k)] b) u := by
  cases b with
  | nil => rfl
  | cons s b =>
    obtain ⟨j, key⟩ := s
    have hat := looks_here hlooks hrun hlen j
    rw [Address.origin_here]
    split_ifs at hat ⊢
    · exact hasStep_congr hat
    · rw [hasStep_cons (cons_ne_nil _ b) i, hrun]
      exact hasStep_congr hat
    · exact hasStep_congr hat

theorem workflowAt_here (hb : b ≠ []) :
    workflowAt b u' = workflowAt (Address.origin n [(i, k)] b) u := by
  obtain ⟨⟨j, key⟩, b, rfl⟩ := exists_cons_of_ne_nil hb
  have hat := looks_here hlooks hrun hlen j
  rw [Address.origin_here]
  split_ifs at hat ⊢
  · rw [workflowAt, workflowAt, runAt_congr hat]
  · rw [workflowAt, workflowAt, hrun, runAt_congr hat]
    rfl
  · rw [workflowAt, workflowAt, runAt_congr hat]

end Here

section Inside

variable (hlooks : looks u' = (looks u).set i (k, some v)) (hrun : runAt u i k = some sub)

include hlooks hrun

theorem runAt_inside (j : Nat) (key : String) :
    runAt u' j key = if (j, key) = (i, k) then some v else runAt u j key := by
  obtain ⟨hat, hkey⟩ := runAt_eq_some.mp hrun
  have hi := (List.getElem?_eq_some_iff.mp hat).1
  by_cases hj : j = i
  · subst hj
    by_cases hk : key = k
    · subst hk
      rw [if_pos rfl]
      exact runAt_eq_some.mpr ⟨by rw [hlooks, getElem?_set_self hi], hkey⟩
    · rw [if_neg (by simpa using hk), runAt, runAt, hlooks, getElem?_set_self hi, hat]
      simp [Ne.symm hk]
  · rw [if_neg (by simp [hj])]
    exact runAt_congr (by rw [hlooks, getElem?_set_ne (Ne.symm hj)])

theorem hasStep_inside (hq : q ≠ []) (hin : ∀ b, hasStep b v = hasStep (Address.origin n q b) sub)
    (b : Address) : hasStep b u' = hasStep (Address.origin n ((i, k) :: q) b) u := by
  cases b with
  | nil => rw [Address.origin_nil, hasStep, hasStep]
  | cons s b =>
    obtain ⟨j, key⟩ := s
    by_cases hb : b = []
    · subst hb
      have horigin : Address.origin n ((i, k) :: q) [(j, key)] = [(j, key)] := by
        rw [Address.origin_cons hq, Address.origin_nil]
        split_ifs with heq
        · rw [heq]
        · rfl
      rw [horigin, hasStep, hasStep, hlooks]
      by_cases hj : j = i
      · obtain ⟨hat, -⟩ := runAt_eq_some.mp hrun
        rw [hj, getElem?_set_self (List.getElem?_eq_some_iff.mp hat).1, hat]
        rfl
      · rw [getElem?_set_ne (Ne.symm hj)]
    · rw [Address.origin_cons hq, hasStep_cons hb, runAt_inside hlooks hrun]
      split_ifs with heq
      · rw [hasStep_cons (Address.origin_ne_nil hb), hrun]
        exact hin b
      · rw [hasStep_cons hb]

end Inside

variable {d : Doc}

theorem hasStep_head (h : hasStep ((i, k) :: b) yml) : hasStep [(i, k)] yml := by
  by_cases hb : b = []
  · rwa [hb] at h
  · rw [hasStep_cons hb, Option.any_eq_true] at h
    obtain ⟨w, hw, -⟩ := h
    exact hasStep_of_runAt hw

theorem exists_origin (hq : q ≠ []) (hsub : workflowAt q u = some sub)
    (hlen : (looks sub).length = n) (ha : hasStep a u) (hne : a ≠ q) :
    ∃ b, Address.origin n q b = a := by
  induction q generalizing u a with
  | nil => exact absurd rfl hq
  | cons s q ih =>
    obtain ⟨i, k⟩ := s
    obtain ⟨w, hw, hsub⟩ := Option.bind_eq_some_iff.mp hsub
    cases a with
    | nil => cases ha
    | cons r c =>
      obtain ⟨j, key⟩ := r
      have hin : j = i → key = k ∧ (c ≠ [] → hasStep c w) := by
        rintro rfl
        obtain rfl := hasStep_unique (hasStep_head ha) (hasStep_of_runAt hw)
        refine ⟨rfl, fun hc => ?_⟩
        rwa [hasStep_cons hc, hw] at ha
      by_cases hnil : q = []
      · subst hnil
        cases hsub
        rcases Nat.lt_trichotomy j i with hj | rfl | hj
        · exact ⟨(j, key) :: c, by rw [Address.origin_here, if_pos hj]⟩
        · obtain ⟨rfl, hc⟩ := hin rfl
          cases c with
          | nil => exact absurd rfl hne
          | cons r c =>
            obtain ⟨m, name⟩ := r
            have hm := hasStep_lt (hasStep_head (hc (cons_ne_nil _ _)))
            refine ⟨(j + m, name) :: c, ?_⟩
            rw [Address.origin_here, if_neg (by omega), if_pos (by omega), Nat.add_sub_cancel_left]
        · refine ⟨(j + n - 1, key) :: c, ?_⟩
          rw [Address.origin_here, if_neg (by omega), if_neg (by omega),
            show j + n - 1 + 1 - n = j by omega]
      · by_cases hr : (j, key) = (i, k)
        · cases hr
          by_cases hc : c = []
          · exact ⟨[(i, k)], by rw [Address.origin_cons hnil, if_pos rfl, Address.origin_nil, hc]⟩
          · obtain ⟨b, rfl⟩ := ih hnil hsub ((hin rfl).2 hc) fun heq => hne (by rw [heq])
            exact ⟨(i, k) :: b, by rw [Address.origin_cons hnil, if_pos rfl]⟩
        · exact ⟨(j, key) :: c, by rw [Address.origin_cons hnil, if_neg hr]⟩

/-! The annotations that are lifted. -/

def TagOf (d yml : Doc) : Prop := ∀ k ks, find? ("wic" :: k :: ks) d = find? ("wic" :: k :: ks) yml

theorem TagOf.find? (h : TagOf d yml) (hb : b ≠ []) (ks : List String) :
    find? (Address.keys b ++ ks) d = find? (Address.keys b ++ ks) yml := by
  obtain ⟨⟨i, k⟩, b, rfl⟩ := exists_cons_of_ne_nil hb
  rw [Address.keys_cons_append]
  exact h _ _

theorem keys_append_steps (a : Address) :
    ∃ ls, a.keys ++ ["wic", "steps"] = "wic" :: "steps" :: ls := by
  cases a with
  | nil => exact ⟨[], rfl⟩
  | cons s a => exact ⟨_, Address.keys_cons_append s.1 s.2 a _⟩

theorem TagOf.describes (h : TagOf d u) (hd : Describes u yml) : Describes d yml := by
  intro a es hes
  obtain ⟨ls, hls⟩ := keys_append_steps a
  rw [hls, h] at hes
  exact hd a es (hls ▸ hes)

theorem TagOf.symm (h : TagOf d u) : TagOf u d := fun k ks => (h k ks).symm

theorem tagOf_of_under? (hd : under? d "wic" = some w) (hu : under? u "wic" = some w) :
    TagOf d u := by
  intro k ks
  rw [find?, find?, hd, hu]

/-- A tag in which the annotation of a step lies over the one that its workflow has of its own. -/
structure Lifted (i : Nat) (k : String) (sub u tag : Doc) : Prop where
  others : ∀ j key b ks, (j, key) ≠ (i, k) →
    find? (Address.keys ((j, key) :: b) ++ ks) tag = find? (Address.keys ((j, key) :: b) ++ ks) u
  within : ∀ l ls, atop (find? ("wic" :: l :: ls) sub)
    (find? ("wic" :: "steps" :: placeKey i k :: "wic" :: l :: ls) u) =
    .ok (find? ("wic" :: "steps" :: placeKey i k :: "wic" :: l :: ls) tag)
  aside : ∀ l ls, l ≠ "steps" → find? ("wic" :: l :: ls) tag = find? ("wic" :: l :: ls) u
  listed : ∀ es, find? ["wic", "steps"] tag = some (.map es) → ∀ e ∈ es,
    e.1 = .str (placeKey i k) ∨ ∃ ns, find? ["wic", "steps"] u = some (.map ns) ∧ e ∈ ns
  one : oneEach tag

theorem liftNotes_lifted (hone : oneEach u) (honesub : oneEach sub)
    (hw : wic = (under? u "wic").getD (.map [])) (hsub : under? sub' "wic" = under? sub "wic")
    (h : liftNotes wic i k sub' = .ok lifted) : Lifted i k sub u (Doc.obj [("wic", lifted)]) := by
  obtain ⟨ws, ns, nes, merged, rfl, hns, hnes, hmerged, rfl⟩ := liftNotes_eq_ok h
  rw [hsub, ← Doc.find?_singleton] at hmerged
  rw [← Doc.find?_singleton] at hw
  have hu : ∀ l ls, find? ("wic" :: l :: ls) u = find? (l :: ls) (.map ws) := by
    intro l ls
    rw [hw, Doc.find?_getD]
    rfl
  have hsteps : (find? ["wic", "steps"] u).getD (.map []) = .map ns := by
    rw [hu, ← hns, Doc.find?_singleton]
  have hnote : (find? ["wic", "steps", placeKey i k] u).getD (.map []) = .map nes := by
    rw [← hnes, ← Compile.under?_map, ← hsteps, ← Doc.find?_singleton, Doc.find?_getD]
    rfl
  have houter : (get? nes "wic").getD (.map []) =
      (find? ["wic", "steps", placeKey i k, "wic"] u).getD (.map []) := by
    rw [← Compile.under?_map, ← hnote, ← Doc.find?_singleton, Doc.find?_getD]
    rfl
  rw [houter] at hmerged
  have honens := Doc.oneEach_getD hone ["wic", "steps"]
  have honenote := Doc.oneEach_getD hone ["wic", "steps", placeKey i k]
  have honews := Doc.oneEach_getD hone ["wic"]
  have honemerged :=
    Doc.mergeable_oneEach.merge (Doc.oneEach_getD honesub _) (Doc.oneEach_getD hone _) hmerged
  rw [hsteps, oneEach] at honens
  rw [hnote, oneEach] at honenote
  rw [← hw, oneEach] at honews
  have hbelow : ∀ l ls, find? ("wic" :: "steps" :: l :: ls) u = (get? ns l).bind (find? ls) := by
    intro l ls
    rw [← Compile.under?_map, ← hsteps]
    exact (Doc.find?_getD ["wic", "steps"] l ls u).symm
  refine ⟨fun j key b ks hne => ?_, fun l ls => ?_, fun l ls hl => ?_, fun es hes e he => ?_, ?_⟩
  · have hkey : placeKey i k ≠ placeKey j key := fun heq => by
      obtain ⟨rfl, rfl⟩ := placeKey_inj heq
      exact hne rfl
    rw [Address.keys_cons_append, hbelow]
    simp [find?, Doc.obj, get?, get?_put_ne hkey]
  · have hmerge := Doc.find?_merge (Doc.oneEach_getD hone _) hmerged l ls
    rw [Doc.find?_getD, Doc.find?_getD] at hmerge
    refine hmerge.trans (congrArg Except.ok ?_)
    simp [find?, Doc.obj, get?]
  · rw [hu]
    simp [find?, Doc.obj, get?, get?_put_ne (Ne.symm hl)]
  · obtain rfl : put ns (placeKey i k) (.map (put nes "wic" merged)) = es := by
      simpa [find?, Doc.obj, get?] using hes
    rcases mem_put he with he | rfl
    · refine .inr ⟨ns, ?_, he⟩
      cases hfind : find? ["wic", "steps"] u with
      | none =>
        rw [hfind] at hsteps
        cases hsteps
        cases he
      | some d =>
        rw [hfind] at hsteps
        exact congrArg some hsteps
    · exact .inl rfl
  · have honelifted : oneEachEntries
        (put ws "steps" (.map (put ns (placeKey i k) (.map (put nes "wic" merged))))) := by
      refine Doc.oneEach_put honews ?_
      rw [oneEach]
      refine Doc.oneEach_put honens ?_
      rw [oneEach]
      exact Doc.oneEach_put honenote honemerged
    simpa [Doc.obj, oneEach, oneEachEntries, has, get?, Doc.str?] using honelifted

theorem Lifted.describes (h : Lifted i k sub u tag) (hu : Describes u u) (hsub : Describes sub sub)
    (hrun : runAt u i k = some sub) (hk : Legible k) : Describes tag u := by
  intro a es hes e he
  cases a with
  | nil =>
    rcases h.listed es hes e he with heq | ⟨ns, hns, hmem⟩
    · exact ⟨i, k, heq, hk, hasStep_of_runAt hrun⟩
    · exact hu [] ns hns e hmem
  | cons s a =>
    obtain ⟨j, key⟩ := s
    by_cases hs : (j, key) = (i, k)
    · cases hs
      -- a key below the step comes from its workflow or from what is said around it
      obtain ⟨ls, hls⟩ := keys_append_steps a
      have hmerged := h.within "steps" ls
      rw [← hls, ← Address.keys_cons_append i k a, hes] at hmerged
      rcases Doc.mem_keys_atop hmerged (mem_map_of_mem he) with ⟨ds, hds, hmem⟩ | ⟨ds, hds, hmem⟩
      · obtain ⟨d, hd, hkey⟩ := mem_map.mp hmem
        rw [← hkey]
        refine (hsub a ds hds d hd).imp fun j key hstep => ?_
        rw [cons_append, hasStep_cons (by simp), hrun]
        exact hstep
      · obtain ⟨d, hd, hkey⟩ := mem_map.mp hmem
        rw [← hkey]
        exact hu _ ds hds d hd
    · rw [h.others j key a _ hs] at hes
      exact hu _ es hes e he

/-! Annotations in one workflow. -/

/-- How a workflow changes when the one at an address inside, which has `n` steps, is inlined. A
step stands where `origin` tells where it stood before, and so do the annotations; where the steps
move into the workflow itself, what it says of them lies over what was said in their own workflow.
-/
structure Follows (n : Nat) (q : Address) (u u' : Doc) : Prop where
  steps : ∀ b, hasStep b u' = hasStep (Address.origin n q b) u
  found : ∀ a, hasStep a u → ((∃! b, Address.origin n q b = a) ↔ a ≠ q)
  kept : ∀ b ks, ¬ b <+: q.dropLast → (q.length = 1 → ¬ q <+: Address.origin n q b) →
    find? (Address.keys b ++ ks) u' = find? ((Address.origin n q b).keys ++ ks) u
  merged : ∀ b c ks sub, q.length = 1 → workflowAt q u = some sub → Address.origin n q b = q ++ c →
    atop (find? (Address.keys c ++ ks) sub) (find? (Address.keys (q ++ c) ++ ks) u) =
    .ok (find? (Address.keys b ++ ks) u')
  around : ∀ b ks, b <+: q.dropLast → Aside ks → (b = [] → ks.head? = some "wic") →
    find? (Address.keys b ++ ks) u' = find? (Address.keys b ++ ks) u

theorem found_of_workflowAt (hq : q ≠ []) (hsub : workflowAt q u = some sub)
    (hlen : (looks sub).length = n) (ha : hasStep a u) :
    (∃! b, Address.origin n q b = a) ↔ a ≠ q := by
  constructor
  · rintro ⟨b, rfl, -⟩
    exact Address.origin_ne hq n b
  · intro hne
    obtain ⟨b, hb⟩ := exists_origin hq hsub hlen ha hne
    exact ⟨b, hb, fun b' hb' => Address.origin_injective n q (hb'.trans hb.symm)⟩

theorem Moved.describes (hm : Moved n q note note') (hd : Describes note u)
    (hsub : workflowAt q u = some sub)
    (hsteps : ∀ b, hasStep b u' = hasStep (Address.origin n q b) u) : Describes note' u' := by
  intro a es hes e he
  have hplaced : Placed (fun _ _ => True) e.1 := by
    by_cases ha : a <+: q.dropLast
    · exact hm.placed a es ha hes e he
    · rw [hm.kept a _ ha] at hes
      exact (hd _ es hes e he).imp fun _ _ _ => trivial
  obtain ⟨j, key, hkey, hlegible, -⟩ := hplaced
  refine ⟨j, key, hkey, hlegible, (hsteps _).trans ?_⟩
  have hne : a ++ [(j, key)] ≠ [] := by simp
  by_cases hb : a ++ [(j, key)] <+: q.dropLast
  · rw [Address.origin_prefix hb]
    exact hasStep_of_workflowAt hne (hb.trans <| dropLast_prefix q) hsub
  · have hhas : has es (placeKey j key) := has_of_mem (v := e.2) (hkey ▸ he)
    obtain ⟨v, hv⟩ := Option.isSome_iff_exists.mp hhas
    refine hd.hasStep (v := v) (Address.origin_ne_nil hne) ?_
    rw [← append_nil (Address.keys _), ← hm.kept _ [] hb, append_nil, Address.keys_concat,
      Doc.find?_append, hes]
    simpa [Doc.find?_singleton] using hv

theorem aside_wic (h : Aside ks) (hhead : ks.head? = some "wic") :
    ∃ l ls, ks = "wic" :: l :: ls ∧ l ≠ "steps" := by
  obtain ⟨hto, hthrough⟩ := h
  cases ks with
  | nil => cases hhead
  | cons m ks =>
    cases hhead
    cases ks with
    | nil => exact absurd ⟨["steps"], rfl⟩ hto
    | cons l ls =>
      refine ⟨l, ls, rfl, ?_⟩
      rintro rfl
      exact hthrough ⟨ls, rfl⟩

section Step

variable {wic wic' tag : Doc} (hann : Annotated u)
  (hone : oneEach u) (hrun : runAt u i k = some sub) (hwic : wic = (under? u "wic").getD (.map []))
  (hwic' : under? u' "wic" = some wic') (htag : under? tag "wic" = some wic')

include hann hone hrun hwic hwic' htag

theorem follows_here (honesub : oneEach sub)
    (hlooks : looks u' = (looks u).take i ++ looks sub ++ (looks u).drop (i + 1))
    (hlen : (looks sub).length = n) (hsub : under? sub' "wic" = under? sub "wic")
    (hlift : liftNotes wic i k sub' = .ok lifted)
    (hnotes : inlineNotesAt (Doc.obj [("wic", lifted)]) n [((i : Int), k)] = .ok tag) :
    Follows n [(i, k)] u u' ∧ Annotated u' := by
  have hl := liftNotes_lifted hone honesub hwic hsub hlift
  have hat : workflowAt [(i, k)] u = some sub := by rw [workflowAt, hrun]; rfl
  obtain ⟨hu, hlegible⟩ := hann [] u rfl
  obtain ⟨hsub, hlegible'⟩ := hann _ sub hat
  have hk : Legible k := hlegible _ (mem_of_getElem? (runAt_eq_some.mp hrun).1)
  have hdesc := hl.describes hu hsub hrun hk
  have hm := moved_last hl.one hdesc hrun hlen hnotes
  have hof : TagOf tag u' := tagOf_of_under? htag hwic'
  have hsteps := hasStep_here hlooks hrun hlen
  refine ⟨⟨hsteps, fun a => found_of_workflowAt (by simp) hat hlen, ?_, ?_, ?_⟩, ?_⟩
  · intro b ks hb hq
    have hne : b ≠ [] := fun hnil => hb (hnil ▸ nil_prefix)
    rw [← hof.find? hne ks, hm.kept b ks hb]
    obtain ⟨⟨j, key⟩, c, hc⟩ :=
      exists_cons_of_ne_nil (Address.origin_ne_nil (n := n) (q := [(i, k)]) hne)
    rw [hc] at hq ⊢
    exact hl.others j key c ks fun heq => hq rfl ⟨c, by rw [heq]; rfl⟩
  · intro b c ks w _ hw horigin
    cases hat.symm.trans hw
    have hne : b ≠ [] := by
      rintro rfl
      cases horigin
    have hc : c ≠ [] := by
      rintro rfl
      exact Address.origin_ne (by simp) n b horigin
    have hb : ¬ b <+: [(i, k)].dropLast := fun hpre => hne (prefix_nil.mp hpre)
    obtain ⟨⟨m, name⟩, c, rfl⟩ := exists_cons_of_ne_nil hc
    rw [← hof.find? hne ks, hm.kept b ks hb, horigin, singleton_append, Address.keys_cons_append,
      Address.keys_cons_append]
    exact hl.within _ _
  · intro b ks hb haside hhead
    obtain rfl := prefix_nil.mp hb
    obtain ⟨l, ls, rfl, hl'⟩ := aside_wic haside (hhead rfl)
    calc find? (Address.keys [] ++ "wic" :: l :: ls) u'
        = find? ("wic" :: l :: ls) tag := (hof l ls).symm
      _ = find? ("wic" :: l :: ls) (Doc.obj [("wic", lifted)]) := hm.around [] _ hb haside
      _ = find? ("wic" :: l :: ls) u := hl.aside l ls hl'
  · intro a w hw
    by_cases ha : a = []
    · subst ha
      cases hw
      refine ⟨hof.symm.describes (hm.describes hdesc hat hsteps), fun s hs => ?_⟩
      rw [hlooks, mem_append, mem_append] at hs
      rcases hs with (hs | hs) | hs
      · exact hlegible s (mem_of_mem_take hs)
      · exact hlegible' s hs
      · exact hlegible s (mem_of_mem_drop hs)
    · rw [workflowAt_here hlooks hrun hlen ha] at hw
      exact hann _ w hw

theorem follows_inside (hq : q ≠ []) (hs : workflowAt q sub = some s) (hlen : (looks s).length = n)
    (hlooks : looks u' = (looks u).set i (k, some v))
    (hin : ∀ b, hasStep b v = hasStep (Address.origin n q b) sub) (hannv : Annotated v)
    (hnotes : inlineNotesAt (Doc.obj [("wic", wic)]) n
      (((i, k) :: q).map fun s => ((s.1 : Int), s.2)) = .ok tag) :
    Follows n ((i, k) :: q) u u' ∧ Annotated u' := by
  have hat : workflowAt ((i, k) :: q) u = some s := by rw [workflowAt, hrun]; exact hs
  obtain ⟨hu, hlegible⟩ := hann [] u rfl
  have hown : TagOf (Doc.obj [("wic", wic)]) u := find?_tag hwic
  have hof : TagOf tag u' := tagOf_of_under? htag hwic'
  have honetag : oneEach (Doc.obj [("wic", wic)]) := by
    have honewic : oneEach wic := by
      rw [hwic, ← Doc.find?_singleton]
      exact Doc.oneEach_getD hone _
    simpa [Doc.obj, oneEach, oneEachEntries, has, get?, Doc.str?] using honewic
  have hdesc := hown.describes hu
  have hm := inlineNotesAt_moved (cons_ne_nil _ q) honetag hdesc hat hlen hnotes
  have hsteps := hasStep_inside hlooks hrun hq hin
  have hlong : ((i, k) :: q).length ≠ 1 := by simpa using hq
  refine ⟨⟨hsteps, fun a => found_of_workflowAt (cons_ne_nil _ q) hat hlen, ?_, ?_, ?_⟩, ?_⟩
  · intro b ks hb _
    have hne : b ≠ [] := fun hnil => hb (hnil ▸ nil_prefix)
    rw [← hof.find? hne ks, hm.kept b ks hb, hown.find? (Address.origin_ne_nil hne)]
  · intro b c ks w hlen
    exact absurd hlen hlong
  · intro b ks hb haside hhead
    by_cases hne : b = []
    · subst hne
      obtain ⟨l, ls, rfl, -⟩ := aside_wic haside (hhead rfl)
      exact (hof l ls).symm.trans ((hm.around [] _ hb haside).trans (hown l ls))
    · rw [← hof.find? hne ks, hm.around b ks hb haside, hown.find? hne]
  · intro a w hw
    cases a with
    | nil =>
      cases hw
      refine ⟨hof.symm.describes (hm.describes hdesc hat hsteps), fun s hs => ?_⟩
      rw [hlooks] at hs
      rcases mem_or_eq_of_mem_set hs with hs | rfl
      · exact hlegible s hs
      · exact hlegible (k, some sub) (mem_of_getElem? (runAt_eq_some.mp hrun).1)
    | cons r a =>
      rw [workflowAt, runAt_inside hlooks hrun] at hw
      split_ifs at hw with hr
      · exact hannv a w hw
      · exact hann (r :: a) w hw

end Step

/-! All workflows around the one that is inlined. -/

def Address.names : String → Address → Namespaces
  | _, [] => []
  | stem, (i, k) :: a => stepName (Path.stem stem) i k :: names k a

variable {t : Tree} {stem : String} {w : Doc}

theorem LeadsIn.exists_address (h : LeadsIn t path) :
    ∃ p s, path = Address.names t.id.stem p ∧ workflowAt p t.yml = some s := by
  induction h with
  | here t => exact ⟨[], t.yml, rfl, rfl⟩
  | @step t steps i x sub key path hsteps hi hkey hsub rest ih =>
    obtain ⟨p, s, rfl, hs⟩ := ih
    have hrun : runAt t.yml i key = some sub := by
      refine runAt_eq_some.mpr ⟨?_, hkey⟩
      rw [looks_of_steps hsteps, getElem?_map, hi, Option.map_some, look, field_eq_ok.mp hsub]
    exact ⟨(i, key) :: p, s, rfl, by rw [workflowAt, hrun]; exact hs⟩

theorem read_names
    (h : (Address.names stem q).mapM (fun name => do
      let s ← StepName.read name
      return (s.index, s.key)) = .ok places) :
    places = q.map fun s => ((s.1 : Int), s.2) := by
  have heach := mapM_eq_ok h
  clear h
  induction q generalizing stem places with
  | nil =>
    cases heach
    rfl
  | cons s q ih =>
    obtain ⟨place, places, hplace, hrest, rfl⟩ := forall₂_cons_left_iff.mp heach
    obtain ⟨name, hname, hplace⟩ := of_bind hplace
    obtain ⟨hindex, hkey⟩ := StepName.read_place hname
    rw [← pure_eq_ok.mp hplace, hindex, hkey, map_cons, ih hrest]

theorem inlineNotes_eq_ok
    (h : inlineNotes (Doc.obj [("wic", w)]) (Address.names stem q) c = .ok wic') :
    ∃ tag, inlineNotesAt (Doc.obj [("wic", w)]) c (q.map fun s => ((s.1 : Int), s.2)) = .ok tag ∧
      under? tag "wic" = some wic' := by
  obtain ⟨_, -, places, hplaces, tag, htag, h⟩ := of_bind₃ h
  exact ⟨tag, read_names hplaces ▸ htag, field_eq_ok.mp h⟩

theorem looks_spliced {es : Entries} {ps qs : List (Doc × String)}
    (hps : Tree.steps (.map es) = .ok ps) (hqs : ∀ s ∈ qs, stepKey s.1 = .str s.2) :
    looks (spliced es (ps.map (·.1)) i (qs.map (·.1)) w) = (looks (.map es)).take i ++
      qs.map look ++ (looks (.map es)).drop (i + 1) := by
  rw [looks_of_steps (steps_spliced hps hqs), looks_of_steps hps, map_append, map_append,
    map_take, map_drop]

theorem exists_keys (hks : keys yml = .ok ks) (hrun : runAt yml i k = some sub) :
    ∃ inner, keys sub = .ok inner := by
  obtain ⟨hat, hkey⟩ := runAt_eq_some.mp hrun
  obtain ⟨ps, x, hps, hi, hsub⟩ := steps_of_looks hat
  obtain ⟨_, kss, hps', heach, -⟩ := keys_eq_ok.mp hks
  cases hps.symm.trans hps'
  obtain ⟨_, -, hread⟩ := forall₂_at heach hi
  obtain ⟨inner, hinner, -⟩ := (keysAt_sub (s := (x, k)) hkey hsub).mp hread
  exact ⟨inner, hinner⟩

/-- What inlining the workflow at an address does to all others: those off the way are as they were,
and the annotations of those on the way follow the steps. -/
structure FollowsAlong (n : Nat) (p : Address) (yml yml' : Doc) : Prop where
  apart : ∀ b, ¬ b <+: p.dropLast → workflowAt b yml' = workflowAt (Address.origin n p b) yml
  along : ∀ pre q, p = pre ++ q → q ≠ [] →
    ∃ u u', workflowAt pre yml = some u ∧ workflowAt pre yml' = some u' ∧ Follows n q u u'

def Singly (yml : Doc) : Prop := ∀ a u, workflowAt a yml = some u → oneEach u

theorem inlineIn_follows {t' : Tree} {s : Doc} {p : Address} {fuel : Nat} (hp : p ≠ [])
    (hs : workflowAt p t.yml = some s) (hun : Unimplemented t.yml) (hks : keys t.yml = .ok ks)
    (hone : Singly t.yml) (hann : Annotated t.yml)
    (h : (inlineIn fuel t (Address.names t.id.stem p)).Yields (t', n)) :
    (looks s).length = n ∧ Annotated t'.yml ∧ FollowsAlong n p t.yml t'.yml := by
  induction p generalizing t t' ks fuel with
  | nil => exact absurd rfl hp
  | cons r p ih =>
    obtain ⟨i, k⟩ := r
    obtain ⟨sub, hrun, hs⟩ := Option.bind_eq_some_iff.mp hs
    obtain ⟨hat, hkey⟩ := runAt_eq_some.mp hrun
    obtain ⟨ps, x, hps, hi, hsub⟩ := steps_of_looks hat
    cases fuel with
    | zero => exact absurd h Logged.yields_throw
    | succ fuel =>
      obtain ⟨es, wic, args, ys, wic', hes, hwic, -, rfl, hin⟩ :=
        inlineIn_cases (fun _ _ => hun.own) hps hi (field_eq_ok.mpr hsub) h
      obtain ⟨inner, hinner⟩ := exists_keys hks hrun
      have hunsub := hun.inner hps (mem_of_getElem? hi) hkey hsub
      have hownwic := fieldD_eq_ok hwic
      have honesub : Singly sub :=
        fun a u hu => hone ((i, k) :: a) u (by rw [workflowAt, hrun]; exact hu)
      have hannsub : Annotated sub :=
        fun a u hu => hann ((i, k) :: a) u (by rw [workflowAt, hrun]; exact hu)
      have hnew : under? (spliced es (ps.map (·.1)) i ys wic') "wic" = some wic' := by
        simp [spliced]
      rw [hes] at hps
      generalize hpath : Address.names k p = path at hin
      cases hin with
      | here given steps lift notes =>
        obtain rfl : p = [] := by
          cases p with
          | nil => rfl
          | cons r p => cases hpath
        obtain rfl : s = sub := (Option.some.inj hs).symm
        obtain ⟨hwicsub, xs, _, hxs, hys, hface⟩ := applyArgs_face given
        cases steps.symm.trans hys
        obtain ⟨qs, _, hqs, -, -⟩ := keys_eq_ok.mp hinner
        obtain ⟨qs', rfl, hkeys', hlook⟩ := steps_of_face hqs hxs hface
        have hlooks := looks_spliced (i := i) (w := wic') hps hkeys'
        rw [hlook, ← looks_of_steps hqs, ← hes] at hlooks
        have hlen : (looks s).length = (qs'.map (·.1)).length := by
          rw [looks_of_steps hqs, ← hlook, length_map, length_map]
        obtain ⟨tag, htag, hunder⟩ := inlineNotes_eq_ok (q := [(i, k)]) notes
        obtain ⟨hfollows, hann'⟩ := follows_here hann (hone [] _ rfl) hrun hownwic hnew hunder
          (honesub [] s rfl) hlooks hlen hwicsub lift htag
        refine ⟨hlen, hann', ⟨fun b hb => ?_, fun pre q hpq hq => ?_⟩⟩
        · exact workflowAt_here hlooks hrun hlen fun hnil => hb (hnil ▸ nil_prefix)
        obtain ⟨rfl, rfl⟩ : pre = [] ∧ q = [(i, k)] :=
          (singleton_eq_append_iff.mp hpq).resolve_right fun h => hq h.2
        exact ⟨_, _, rfl, rfl, hfollows⟩
      | @inside r _ m path _ inside notes =>
        have hp : p ≠ [] := by
          rintro rfl
          cases hpath
        rw [← hpath] at inside notes
        obtain ⟨hlen, hannr, hrest⟩ :=
          ih (t := ⟨⟨k, t.id.space⟩, sub⟩) hp hs hunsub hinner honesub hannsub inside
        obtain ⟨_, _, hsub', hr', hfollows⟩ := hrest.along [] p rfl hp
        cases hsub'
        cases hr'
        let step := Doc.obj [("id", .str k), ("subtree", r.yml), ("parentargs", args)]
        have hstep : ∀ s ∈ [(step, k)], stepKey s.1 = .str s.2 := by
          intro s hs
          rw [mem_singleton.mp hs]
          rfl
        have hlooks : looks (spliced es (ps.map (·.1)) i [step] wic') = (looks t.yml).set i
            (k, some r.yml) := by
          rw [set_eq_take_append_cons_drop, if_pos (List.getElem?_eq_some_iff.mp hat).1, hes]
          exact (looks_spliced hps hstep).trans (append_assoc _ _ _)
        obtain ⟨tag, htag, hunder⟩ := inlineNotes_eq_ok (q := (i, k) :: p) notes
        obtain ⟨hfollows', hann'⟩ := follows_inside hann (hone [] _ rfl) hrun hownwic hnew hunder hp
          hs hlen hlooks hfollows.steps hannr htag
        refine ⟨hlen, hann', ⟨fun b hb => ?_, fun pre q hpq hq => ?_⟩⟩
        · rw [dropLast_cons_of_ne_nil hp] at hb
          cases b with
          | nil => exact absurd nil_prefix hb
          | cons s b =>
            rw [Address.origin_cons hp, workflowAt, runAt_inside hlooks hrun]
            split_ifs with heq
            · rw [workflowAt, hrun]
              exact hrest.apart b fun hpre => hb (cons_prefix_cons.mpr ⟨heq, hpre⟩)
            · rfl
        cases pre with
        | nil =>
          cases hpq
          exact ⟨_, _, rfl, rfl, hfollows'⟩
        | cons s pre =>
          obtain ⟨rfl, htail⟩ := cons.inj hpq
          obtain ⟨u, u', hu, hu', hf⟩ := hrest.along pre q htail hq
          refine ⟨u, u', ?_, ?_, hf⟩
          · rw [workflowAt, hrun]
            exact hu
          · rw [workflowAt, runAt_inside hlooks hrun, if_pos rfl]
            exact hu'

/-- Annotations follow their steps under inlining. Afterwards all annotations speak of steps that
are there, in every workflow on the way to the one that was inlined the steps keep what was said of
them, and the workflows off the way are as they were. -/
theorem annotations_follow_steps {t t' : Tree} {path : Namespaces} {paths : List Namespaces}
    {n : Nat} (hun : Unimplemented t.yml) (hone : Singly t.yml) (hann : Annotated t.yml)
    (hpaths : inlineable t = .ok paths) (hpath : path ∈ paths)
    (h : (inlineAt t path).Yields (t', n)) :
    Annotated t'.yml ∧ ∃ p s, path = Address.names t.id.stem p ∧ workflowAt p t.yml = some s ∧
      (looks s).length = n ∧
      FollowsAlong n p t.yml t'.yml := by
  obtain ⟨⟨ks, hks⟩, hlead⟩ := inlineableIn_leads hun hpaths
  obtain ⟨hne, _, rfl, hleads⟩ := hlead path hpath
  obtain ⟨p, s, hp, hs⟩ := hleads.exists_address
  subst hp
  have hp : p ≠ [] := fun hnil => hne (by rw [hnil]; rfl)
  obtain ⟨hlen, hann', hfollows⟩ := inlineIn_follows hp hs hun hks hone hann h
  exact ⟨hann', p, s, rfl, hs, hlen, hfollows⟩

def describesTo : Nat → Doc → Doc → Bool
  | 0, _, _ => false
  | n + 1, note, yml => ((find? ["wic", "steps"] note).bind Doc.map?).all fun es => es.all fun e =>
    (looks yml).zipIdx.any fun s => e.1 == .str (placeKey s.2 s.1.1) && decide (Legible s.1.1) &&
      ((find? ["wic", "steps"] e.2).isNone || isSubKey s.1.1 && s.1.2.any (describesTo n e.2))

theorem Describes.of_describesTo (h : describesTo n note yml) : Describes note yml := by
  induction n generalizing note yml with
  | zero => cases h
  | succ n ih =>
    have hsteps : ∀ es, find? ["wic", "steps"] note = some (.map es) →
        ∀ e ∈ es, ∃ (i : Nat) (k : String) (s : Option Doc),
        (looks yml)[i]? = some (k, s) ∧ e.1 = .str (placeKey i k) ∧ Legible k ∧
          (find? ["wic", "steps"] e.2 = none ∨ ∃ sub, runAt yml i k = some sub ∧
            Describes e.2 sub) := by
      intro es hes e he
      rw [describesTo, hes] at h
      simp only [Option.bind_some, Doc.map?, Option.all_some, all_eq_true] at h
      obtain ⟨⟨⟨k, s⟩, i⟩, hs, hfits⟩ := any_eq_true.mp (h e he)
      simp only [Bool.and_eq_true, Doc.beq_str_iff, decide_eq_true_eq] at hfits
      obtain ⟨⟨hkey, hlegible⟩, hbelow⟩ := hfits
      have hat := mem_zipIdx_iff_getElem?.mp hs
      refine ⟨i, k, s, hat, hkey, hlegible,
        (Bool.or_eq_true_iff.mp hbelow).imp Option.isNone_iff_eq_none.mp fun hin => ?_⟩
      obtain ⟨hsub, hin⟩ := Bool.and_eq_true_iff.mp hin
      obtain ⟨sub, rfl, hin⟩ := Option.any_eq_true _ _ |>.mp hin
      exact ⟨sub, runAt_eq_some.mpr ⟨hat, hsub⟩, ih hin⟩
    intro a fs hfs e he
    cases a with
    | nil =>
      obtain ⟨i, k, s, hat, hkey, hlegible, -⟩ := hsteps fs hfs e he
      exact ⟨i, k, hkey, hlegible, hasStep_singleton.mpr ⟨s, hat⟩⟩
    | cons r a =>
      rw [find?_keys_cons, show ["wic", "steps", placeKey r.1 r.2] = ["wic", "steps"] ++
        [placeKey r.1 r.2] from rfl, Doc.find?_append] at hfs
      obtain ⟨v, hv, hfs⟩ := Option.bind_eq_some_iff.mp hfs
      obtain ⟨d, hd, hv⟩ := Option.bind_eq_some_iff.mp hv
      rw [Doc.find?_singleton] at hv
      obtain ⟨es, rfl, hmem⟩ := Compile.mem_of_under? hv
      obtain ⟨i, k, _, -, hkey, -, hbelow⟩ := hsteps es hd _ hmem
      obtain ⟨rfl, rfl⟩ := placeKey_inj (Doc.str.inj hkey)
      rcases hbelow with hnone | ⟨sub, hrun, hin⟩
      · obtain ⟨ls, hls⟩ := keys_append_steps a
        rw [hls, show "wic" :: "steps" :: ls = ["wic", "steps"] ++ ls from rfl, Doc.find?_append,
          hnone] at hfs
        cases hfs
      · refine (hin a fs hfs e he).imp fun i k hstep => ?_
        rw [cons_append, hasStep_cons (by simp), hrun]
        exact hstep

def annotatedTo : Nat → Doc → Bool
  | 0, _ => false
  | n + 1, yml =>
    oneEach yml && describesTo n yml yml && (looks yml).all fun s =>
      decide (Legible s.1) && s.2.all (annotatedTo n)

theorem annotated_of_annotatedTo (h : annotatedTo n yml) : Singly yml ∧ Annotated yml := by
  have hall : ∀ a u, workflowAt a yml = some u → oneEach u ∧ Describes u u ∧
      ∀ s ∈ looks u, Legible s.1 := by
    induction n generalizing yml with
    | zero => cases h
    | succ n ih =>
      simp only [annotatedTo, Bool.and_eq_true, all_eq_true, decide_eq_true_eq] at h
      intro a u hu
      cases a with
      | nil =>
        cases hu
        exact ⟨h.1.1, .of_describesTo h.1.2, fun s hs => (h.2 s hs).1⟩
      | cons r a =>
        obtain ⟨sub, hrun, hu⟩ := Option.bind_eq_some_iff.mp hu
        exact ih (h.2 _ (mem_of_getElem? (runAt_eq_some.mp hrun).1)).2 a u hu
  exact ⟨fun a u hu => (hall a u hu).1, fun a u hu => (hall a u hu).2⟩

namespace Sample

def inner : Doc :=
  Doc.obj [("steps", .list [tool "cat", tool "sort"]),
    ("wic", noted 0 "cat" (Doc.obj [("own", .int 1)]))]

def outer : Doc :=
  Doc.obj [("steps", .list [runs "inner.wic" inner [], tool "echo"]),
    ("wic", Doc.obj [("steps", Doc.obj [
      (placeKey 0 "inner.wic", Doc.obj [("wic", noted 0 "cat" (Doc.obj [("over", .int 2)]))]),
      (placeKey 1 "echo", Doc.obj [("kept", .int 3)])])])]

def remarked : Tree :=
  ⟨⟨"wf.wic", globalSpace⟩, Doc.obj [("steps", .list [tool "echo", runs "outer.wic" outer []]),
    ("wic", noted 1 "outer.wic" (Doc.obj [("wic",
      noted 0 "inner.wic" (Doc.obj [("wic", noted 1 "sort" (Doc.obj [("far", .int 4)]))]))]))]⟩

end Sample

open Sample in
theorem annotations_follow_steps_remarked :
    ∃ t' n, (inlineAt remarked ["wf__step__2__outer.wic", "outer__step__1__inner.wic"]).Yields
      (t', n) ∧ Annotated t'.yml ∧ ∃ p s, ["wf__step__2__outer.wic", "outer__step__1__inner.wic"] =
      Address.names "wf.wic" p ∧ workflowAt p remarked.yml = some s ∧ (looks s).length = n ∧
      FollowsAlong n p remarked.yml t'.yml := by
  have hpaths : inlineable remarked = .ok [["wf__step__2__outer.wic"],
      ["wf__step__2__outer.wic", "outer__step__1__inner.wic"]] := by
    decide +kernel
  have hsome : (((inlineAt remarked
      ["wf__step__2__outer.wic", "outer__step__1__inner.wic"]).outcome {}).1.toOption).isSome =
      true := by
    decide +kernel
  obtain ⟨⟨t', n⟩, hr⟩ := Logged.yields_of_isSome hsome
  have hyields := hr
  have hann : Singly remarked.yml ∧ Annotated remarked.yml :=
    annotated_of_annotatedTo (n := 6) (by decide +kernel)
  exact ⟨t', n, hyields, annotations_follow_steps (.of_lacksImpls (n := 4) (by decide +kernel))
    hann.1 hann.2 hpaths (by simp) hyields⟩

end Workflow

end WorkflowInference
