import WorkflowInference.Doc.Merge
import WorkflowInference.Proofs.Entries
import WorkflowInference.Proofs.Logged

/-!
Documents inside documents. A document inside another is no deeper than it and mentions no other
keys; merging two documents brings up no key that neither of them mentions.
-/
namespace WorkflowInference.Doc

open Entries List

inductive Inside : Doc → Doc → Prop
  | refl (d : Doc) : Inside d d
  | item {d x : Doc} {xs : List Doc} (mem : x ∈ xs) (rest : Inside d x) : Inside d (.list xs)
  | value {d k v : Doc} {es : Entries} (mem : (k, v) ∈ es) (rest : Inside d v) : Inside d (.map es)

variable {k x d e : Doc} {xs : List Doc} {es : Entries}

theorem Inside.trans (h : Inside a b) (h' : Inside b c) : Inside a c := by
  induction h' with
  | refl => exact h
  | item mem _ ih => exact .item mem ih
  | value mem _ ih => exact .value mem ih

theorem mentionsItem_eq_any : mentionsItem k xs = xs.any (mentions k) := by
  induction xs with
  | nil => rfl
  | cons y ys ih => rw [mentionsItem, ih, any_cons]

theorem mentionsEntry_eq_any :
    mentionsEntry k es = es.any fun e => Doc.eq e.1 k || mentions k e.2 := by
  induction es with
  | nil => rfl
  | cons e es ih => rw [mentionsEntry, ih, any_cons]

theorem mentionsEntry_eq_false :
    mentionsEntry k es = false ↔ ∀ e ∈ es, Doc.eq e.1 k = false ∧ mentions k e.2 = false := by
  simp [mentionsEntry_eq_any]

theorem Inside.mentions (h : Inside d e) (he : mentions k e = false) : mentions k d = false := by
  induction h with
  | refl => exact he
  | item mem _ ih =>
    rw [Doc.mentions, mentionsItem_eq_any, any_eq_false] at he
    exact ih (by simpa using he _ mem)
  | value mem _ ih =>
    rw [Doc.mentions, mentionsEntry_eq_false] at he
    exact ih (he _ mem).2

theorem depth_item_le (h : x ∈ xs) : x.depth ≤ depthItems xs := by
  induction xs with
  | nil => cases h
  | cons y ys ih =>
    rw [depthItems]
    rcases mem_cons.mp h with rfl | h
    · omega
    · have := ih h
      omega

theorem depth_value_le (h : (k, v) ∈ es) : v.depth ≤ depthEntries es := by
  induction es with
  | nil => cases h
  | cons e es ih =>
    rw [depthEntries]
    rcases mem_cons.mp h with rfl | h
    · dsimp only
      omega
    · have := ih h
      omega

theorem Inside.depth_le (h : Inside d e) : d.depth ≤ e.depth := by
  induction h with
  | refl => exact Nat.le_refl _
  | item mem _ ih =>
    have := depth_item_le mem
    rw [depth]
    omega
  | value mem _ ih =>
    have := depth_value_le mem
    rw [depth]
    omega

section Merge

variable {k l v : Doc} {es : Entries}

theorem mentionsEntry_write (hes : mentionsEntry k es = false) (hl : Doc.eq l k = false)
    (hv : mentions k v = false) : mentionsEntry k (write es l v) = false := by
  induction es with
  | nil => simp [write, mentionsEntry, hl, hv]
  | cons e es ih =>
    obtain ⟨m, w⟩ := e
    simp only [mentionsEntry, Bool.or_eq_false_iff] at hes
    simp only [write]
    split
    · simp [mentionsEntry, hes, hv]
    · simp [mentionsEntry, hes, ih hes.2]

theorem mentions_at? (hes : mentionsEntry k es = false) (h : at? es l = some v) :
    mentions k v = false := by
  obtain ⟨m, hm, -⟩ := mem_of_at? h
  exact (mentionsEntry_eq_false.mp hes _ hm).2

theorem mergeEntries_cons (h : mergeEntries dst ((l, v) :: es) = .ok r) :
    ∃ w, mergeEntries (write dst l w) es = .ok r ∧
      (at? dst l = none ∧ w = v ∨ ∃ old, at? dst l = some old ∧ mergeValue old v = .ok w) := by
  simp only [mergeEntries] at h
  split at h
  · rename_i hnone
    exact ⟨v, h, .inl ⟨hnone, rfl⟩⟩
  · rename_i old hold
    split at h
    · cases h
    · rename_i new hnew
      exact ⟨new, h, .inr ⟨old, hold, hnew⟩⟩

theorem mergeValue_cases (h : mergeValue u v = .ok w) :
    (∃ ds es rs, u = .map ds ∧ v = .map es ∧ mergeEntries ds es = .ok rs ∧ w = .map rs) ∨
      w = v ∧ sameKind u v ∧ ∀ es, v ≠ .map es := by
  cases v with
  | map es =>
    simp only [mergeValue] at h
    split at h
    · rename_i ds
      split at h
      · cases h
      · rename_i rs hr
        cases h
        exact .inl ⟨ds, es, rs, rfl, rfl, hr, rfl⟩
    · cases h
  | _ =>
    simp only [mergeValue] at h
    split at h
    · rename_i hkind
      cases h
      exact .inr ⟨rfl, hkind, fun _ => nofun⟩
    · cases h

theorem merge_cases {dst src r : Doc} (h : dst.merge src = .ok r) :
    (∃ ds es rs, dst = .map ds ∧ src = .map es ∧ mergeEntries ds es = .ok rs ∧ r = .map rs) ∨
      r = dst ∧ ∀ es, src = .map es → es = [] := by
  unfold merge at h
  split at h
  · rename_i ds es
    cases hm : mergeEntries ds es with
    | error e => simp [hm, Except.map] at h
    | ok rs =>
      rw [hm] at h
      cases h
      exact .inl ⟨ds, es, rs, rfl, rfl, hm, rfl⟩
  all_goals grind

/-- A property of maps, and of the values in them, that merging keeps. -/
structure Mergeable (P : Entries → Prop) (Q : Doc → Prop) : Prop where
  map : ∀ es, Q (.map es) ↔ P es
  cons : ∀ l v es, P ((l, v) :: es) → Q v ∧ P es
  write : ∀ l v w es fs, P es → P ((l, v) :: fs) → Q w → P (write es l w)
  at? : ∀ l v es, P es → at? es l = some v → Q v

namespace Mergeable

variable {P : Entries → Prop} {Q : Doc → Prop} (h : Mergeable P Q)

include h

mutual

theorem entries {dst src r : Entries} (hdst : P dst) (hsrc : P src)
    (hm : mergeEntries dst src = .ok r) : P r := by
  match src with
  | [] =>
    cases hm
    exact hdst
  | (l, v) :: es =>
    obtain ⟨hv, hes⟩ := h.cons l v es hsrc
    obtain ⟨w, hw, ⟨-, rfl⟩ | ⟨old, hold, hnew⟩⟩ := mergeEntries_cons hm
    · exact entries (h.write l _ _ dst es hdst hsrc hv) hes hw
    · exact entries
        (h.write l v w dst es hdst hsrc (value (h.at? l old dst hdst hold) hv hnew)) hes hw

theorem value {old v r : Doc} (hold : Q old) (hv : Q v) (hm : mergeValue old v = .ok r) : Q r := by
  match v, mergeValue_cases hm with
  | .map es, .inl ⟨ds, _, rs, hds, hes, hr, hrs⟩ =>
    cases hes
    subst hds hrs
    exact (h.map rs).mpr (entries ((h.map ds).mp hold) ((h.map es).mp hv) hr)
  | _, .inr ⟨heq, _⟩ => rwa [heq]

end

theorem merge {dst src r : Doc} (hdst : Q dst) (hsrc : Q src) (hm : dst.merge src = .ok r) :
    Q r := by
  rcases merge_cases hm with ⟨ds, es, rs, rfl, rfl, hr, rfl⟩ | ⟨rfl, -⟩
  · exact (h.map rs).mpr (h.entries ((h.map ds).mp hdst) ((h.map es).mp hsrc) hr)
  · exact hdst

end Mergeable

theorem mergeable_mentions (k : Doc) :
    Mergeable (mentionsEntry k · = false) (mentions k · = false) where
  map es := by rw [mentions]
  cons l v es h := by simp_all [mentionsEntry]
  write l v w es fs hes h hw :=
    mentionsEntry_write hes (mentionsEntry_eq_false.mp h _ mem_cons_self).1 hw
  at? l v es hes h := mentions_at? hes h

end Merge

def valuesAt (d : Doc) (k : String) : List Doc :=
  (d.map?.getD []).filterMap fun e => if e.1 == .str k then some e.2 else none

variable {es : Entries} {k : String} {v : Doc}

theorem mem_valuesAt : v ∈ (map es).valuesAt k ↔ (.str k, v) ∈ es := by
  rw [valuesAt, map?, Option.getD_some, mem_filterMap]
  constructor
  · rintro ⟨⟨l, w⟩, he, hw⟩
    split at hw
    · rename_i hl
      rw [beq_str_iff] at hl
      cases hw
      rw [← hl]
      exact he
    · cases hw
  · intro h
    refine ⟨_, h, ?_⟩
    rw [if_pos (beq_str_iff.mpr rfl)]

theorem mem_write (h : (.str k, w) ∈ write es l v) : (.str k, w) ∈ es ∨ l = .str k ∧ w = v :=
  (Entries.mem_write h).imp_right fun ⟨hk, hw⟩ => ⟨hk.elim Eq.symm str_eq_iff.mp, hw⟩

section Merged

variable {Q : String → Doc → Prop}

theorem mem_mergeEntries (hQ : ∀ k a b c, Q k a → Q k b → mergeValue a b = .ok c → Q k c)
    (hdst : ∀ k v, (.str k, v) ∈ dst → Q k v) (hsrc : ∀ k v, (.str k, v) ∈ src → Q k v)
    (h : mergeEntries dst src = .ok r) : ∀ k v, (.str k, v) ∈ r → Q k v := by
  induction src generalizing dst with
  | nil =>
    cases h
    exact hdst
  | cons e es ih =>
    obtain ⟨l, v⟩ := e
    have hrest : ∀ k w, (.str k, w) ∈ es → Q k w := fun k w hw => hsrc k w (mem_cons_of_mem _ hw)
    obtain ⟨new, hnew, hvalue⟩ := mergeEntries_cons h
    refine ih (fun k w hw => ?_) hrest hnew
    rcases mem_write hw with hw | ⟨rfl, rfl⟩
    · exact hdst k w hw
    · obtain ⟨-, rfl⟩ | ⟨old, hold, hmerged⟩ := hvalue
      · exact hsrc k _ mem_cons_self
      · rw [at?_str] at hold
        exact hQ k old v w (hdst k old (mem_of_get? hold)) (hsrc k v mem_cons_self) hmerged

theorem valuesAt_merge (hQ : ∀ k a b c, Q k a → Q k b → mergeValue a b = .ok c → Q k c)
    {dst src r : Doc} (hdst : ∀ k, ∀ x ∈ dst.valuesAt k, Q k x)
    (hsrc : ∀ k, ∀ x ∈ src.valuesAt k, Q k x) (h : dst.merge src = .ok r) :
    ∀ k, ∀ x ∈ r.valuesAt k, Q k x := by
  rcases merge_cases h with ⟨ds, es, rs, rfl, rfl, hm, rfl⟩ | ⟨rfl, -⟩
  · intro k x hx
    exact mem_mergeEntries hQ (fun k w hw => hdst k w (mem_valuesAt.mpr hw))
      (fun k w hw => hsrc k w (mem_valuesAt.mpr hw)) hm k x (mem_valuesAt.mp hx)
  · exact hdst

end Merged

end WorkflowInference.Doc
