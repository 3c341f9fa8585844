import WorkflowInference.Proofs.Compile.Draft

/-!
Merged documents, read along a path. What stands at a path of a merged document is what stands there
in the one, with what stands there in the other laid over it. This needs that no map has a text key
twice.
-/
namespace WorkflowInference

open Entries List
open Compile (under?)

namespace Doc

def find? : List String → Doc → Option Doc
  | [], d => some d
  | k :: ks, d => (under? d k).bind (find? ks)

theorem find?_append (ks ls : List String) (d : Doc) :
    find? (ks ++ ls) d = (find? ks d).bind (find? ls) := by
  induction ks generalizing d with
  | nil => rfl
  | cons k ks ih =>
    rw [cons_append, find?, find?, Option.bind_assoc]
    congr 1
    funext v
    exact ih v

theorem find?_singleton (k : String) (d : Doc) : find? [k] d = under? d k := by
  simp [find?]

theorem find?_getD (ks : List String) (l : String) (ls : List String) (d : Doc) :
    find? (l :: ls) ((find? ks d).getD (.map [])) = find? (ks ++ l :: ls) d := by
  rw [find?_append]
  cases find? ks d <;> rfl

mutual

def oneEach : Doc → Bool
  | list xs | tuple xs | set xs => oneEachItems xs
  | map es => oneEachEntries es
  | _ => true

def oneEachItems : List Doc → Bool
  | [] => true
  | x :: xs => oneEach x && oneEachItems xs

def oneEachEntries : List (Doc × Doc) → Bool
  | [] => true
  | (k, v) :: es => (k.str?).all (fun s => !has es s) && oneEach v && oneEachEntries es

end

variable {k : String} {v d : Doc} {es : Entries}

theorem oneEach_of_mem {k : Doc} (h : oneEachEntries es) (hv : (k, v) ∈ es) :
    oneEach v := by
  induction es with
  | nil => cases hv
  | cons e es ih =>
    simp only [oneEachEntries, Bool.and_eq_true] at h
    rcases mem_cons.mp hv with rfl | hv
    · exact h.1.2
    · exact ih h.2 hv

theorem oneEach_of_item (h : oneEachItems xs) (hx : x ∈ xs) : oneEach x := by
  induction xs with
  | nil => cases hx
  | cons y ys ih =>
    simp only [oneEachItems, Bool.and_eq_true] at h
    rcases mem_cons.mp hx with rfl | hx
    · exact h.1
    · exact ih h.2 hx

theorem oneEach_under? (h : oneEach d) (hv : under? d k = some v) :
    oneEach v := by
  obtain ⟨es, rfl, hmem⟩ := Compile.mem_of_under? hv
  exact oneEach_of_mem (by simpa only [oneEach] using h) hmem

theorem oneEach_find? (h : oneEach d) (hv : find? ks d = some v) : oneEach v := by
  induction ks generalizing d with
  | nil =>
    cases hv
    exact h
  | cons k ks ih =>
    obtain ⟨w, hw, hv⟩ := Option.bind_eq_some_iff.mp hv
    exact ih (oneEach_under? h hw) hv

theorem oneEach_getD (h : oneEach d) (ks : List String) :
    oneEach ((find? ks d).getD (.map [])) := by
  cases hfind : find? ks d with
  | none => rfl
  | some v => exact oneEach_find? h hfind

theorem oneEach_write {k : Doc} (hes : oneEachEntries es) (hv : oneEach v) :
    oneEachEntries (write es k v) := by
  fun_induction write es k v with
  | case1 => cases k <;> simp [oneEachEntries, hv, Doc.str?, has, get?]
  | case2 => simp_all [oneEachEntries]
  | case3 l _ _ hlk ih =>
    simp only [oneEachEntries, Bool.and_eq_true] at hes ⊢
    refine ⟨⟨?_, hes.1.2⟩, ih hes.2⟩
    cases l with
    | str s =>
      have hne : k ≠ .str s := by
        rintro rfl
        exact hlk (eq_str_iff.mpr rfl)
      simpa only [Doc.str?, Option.all_some, has, get?_write_ne hne] using hes.1.1
    | _ => rfl

theorem oneEach_remove (hes : oneEachEntries es) :
    oneEachEntries (remove es k) := by
  induction es with
  | nil => rfl
  | cons e es ih =>
    obtain ⟨l, w⟩ := e
    simp only [oneEachEntries, Bool.and_eq_true] at hes
    cases l with
    | str s =>
      unfold remove
      split
      · exact hes.2
      · have hnone : get? es s = none := by simpa [Doc.str?, has] using hes.1.1
        have hs : has (remove es k) s = false := by
          rw [has, get?_remove_ne (Ne.symm ‹_›), hnone]
          rfl
        simp [oneEachEntries, Doc.str?, hs, hes.1.2, ih hes.2]
    | _ => simpa [remove, oneEachEntries, Doc.str?, hes.1.2] using ih hes.2

theorem oneEach_put (hes : oneEachEntries es) (hv : oneEach v) :
    oneEachEntries (put es k v) := by
  rw [← write_str]
  exact oneEach_write hes hv

theorem get?_remove_self (h : oneEachEntries es) :
    get? (remove es k) k = none := by
  induction es with
  | nil => rfl
  | cons e es ih =>
    obtain ⟨l, w⟩ := e
    simp only [oneEachEntries, Bool.and_eq_true] at h
    have hrest := ih h.2
    cases l with
    | str s =>
      unfold remove
      split
      · rename_i heq
        subst heq
        simpa [Doc.str?, has] using h.1.1
      · rename_i hne
        simpa [get?, hne] using hrest
    | _ => simpa [remove, get?] using hrest

theorem mergeable_oneEach : Mergeable (oneEachEntries ·) (oneEach ·) where
  map es := by rw [oneEach]
  cons l v es h := by simp_all [oneEachEntries]
  write l v w es fs hes _ hw := oneEach_write hes hw
  at? l v es hes h := by
    obtain ⟨k, hk, -⟩ := mem_of_at? h
    exact oneEach_of_mem hes hk

variable {dst src r : Entries} {u v w : Doc}

theorem mem_keys_mergeEntries (h : mergeEntries dst src = .ok r) (hx : x ∈ keys r) :
    x ∈ keys dst ∨ x ∈ keys src := by
  induction src generalizing dst with
  | nil =>
    cases h
    exact .inl hx
  | cons e es ih =>
    obtain ⟨l, v⟩ := e
    obtain ⟨w, hw, -⟩ := mergeEntries_cons h
    rcases ih hw with hx | hx
    · rcases keys_write dst l w with hk | hk <;> rw [hk] at hx
      · exact .inl hx
      · exact (mem_append.mp hx).imp_right fun hx => mem_cons.mpr (.inl (mem_singleton.mp hx))
    · exact .inr (mem_cons_of_mem _ hx)

def atop : Option Doc → Option Doc → Result (Option Doc)
  | u, none => .ok u
  | none, some v => .ok (some v)
  | some u, some v => (mergeValue u v).map some

@[simp] theorem atop_none_right (u : Option Doc) : atop u none = .ok u := by
  cases u <;> rfl

@[simp] theorem atop_none_left (v : Option Doc) : atop none v = .ok v := by
  cases v <;> rfl

theorem atop_some (h : mergeValue u v = .ok w) : atop (some u) (some v) = .ok (some w) := by
  rw [atop, h]
  rfl

theorem mem_keys_atop {x y : Option Doc} {es : Entries} (h : atop x y = .ok (some (.map es)))
    {k : Doc} (hk : k ∈ keys es) :
    (∃ ds, x = some (.map ds) ∧ k ∈ keys ds) ∨ ∃ ds, y = some (.map ds) ∧ k ∈ keys ds := by
  cases y with
  | none =>
    rw [atop_none_right] at h
    exact .inl ⟨es, Except.ok.inj h, hk⟩
  | some v =>
    cases x with
    | none =>
      rw [atop_none_left] at h
      exact .inr ⟨es, Except.ok.inj h, hk⟩
    | some u =>
      cases hm : mergeValue u v with
      | error e => simp [atop, hm, Except.map] at h
      | ok w =>
        rw [atop_some hm] at h
        cases h
        obtain ⟨ds, fs, _, rfl, rfl, hr, ⟨⟩⟩ | ⟨rfl, -, hv⟩ := mergeValue_cases hm
        · exact (mem_keys_mergeEntries hr hk).imp (⟨ds, rfl, ·⟩) (⟨fs, rfl, ·⟩)
        · exact absurd rfl (hv es)

theorem get?_mergeEntries (hsrc : oneEachEntries src) (h : mergeEntries dst src = .ok r)
    (k : String) : atop (get? dst k) (get? src k) = .ok (get? r k) := by
  induction src generalizing dst with
  | nil =>
    cases h
    exact atop_none_right _
  | cons e es ih =>
    obtain ⟨l, v⟩ := e
    simp only [oneEachEntries, Bool.and_eq_true] at hsrc
    obtain ⟨w, hw, hvalue⟩ := mergeEntries_cons h
    have hrest := ih hsrc.2 hw
    by_cases hlk : l = .str k
    · subst hlk
      have hlast : get? es k = none := by simpa [Doc.str?, has] using hsrc.1.1
      rw [hlast, write_str, get?_put_self, atop_none_right, Except.ok.injEq] at hrest
      rw [← hrest, get?, if_pos rfl]
      obtain ⟨hnone, rfl⟩ | ⟨old, hold, hnew⟩ := hvalue
      · rw [← at?_str, hnone, atop_none_left]
      · rw [← at?_str, hold, atop_some hnew]
    · -- only the value at the key of the entry changes
      rwa [get?_cons_ne hlk, ← get?_write_ne hlk]

theorem under?_mergeValue (hv : oneEach v) (h : mergeValue u v = .ok w) (k : String) :
    atop (under? u k) (under? v k) = .ok (under? w k) := by
  obtain ⟨ds, es, rs, rfl, rfl, hr, rfl⟩ | ⟨rfl, hkind, hmap⟩ := mergeValue_cases h
  · exact get?_mergeEntries (by simpa only [oneEach] using hv) hr k
  · cases w <;> cases u <;> simp_all [sameKind, under?, Doc.map?]

theorem find?_cons_of_under? (hstep : atop (under? u k) (under? v k) = .ok (under? w k))
    (hrest : ∀ x y z, under? v k = some y → mergeValue x y = .ok z →
      atop (find? ks x) (find? ks y) = .ok (find? ks z)) :
    atop (find? (k :: ks) u) (find? (k :: ks) v) = .ok (find? (k :: ks) w) := by
  simp only [find?]
  cases hvk : under? v k with
  | none =>
    rw [hvk, atop_none_right] at hstep
    simp [← Except.ok.inj hstep]
  | some y =>
    cases huk : under? u k with
    | none =>
      rw [huk, hvk, atop_none_left] at hstep
      simp [← Except.ok.inj hstep]
    | some x =>
      rw [huk, hvk, atop] at hstep
      cases hxy : mergeValue x y with
      | error e => simp [hxy, Except.map] at hstep
      | ok z =>
        rw [hxy] at hstep
        rw [← Except.ok.inj hstep]
        exact hrest x y z hvk hxy

theorem find?_mergeValue (hv : oneEach v) (h : mergeValue u v = .ok w) (ks : List String) :
    atop (find? ks u) (find? ks v) = .ok (find? ks w) := by
  induction ks generalizing u v w with
  | nil => exact atop_some h
  | cons k ks ih =>
    apply find?_cons_of_under? (under?_mergeValue hv h k)
    intro x y z hy hxy
    exact ih (oneEach_under? hv hy) hxy

theorem under?_merge (hv : oneEach v) (h : u.merge v = .ok w) (k : String) :
    atop (under? u k) (under? v k) = .ok (under? w k) := by
  rcases merge_cases h with ⟨ds, es, rs, rfl, rfl, hm, rfl⟩ | ⟨rfl, hnil⟩
  · exact get?_mergeEntries (by simpa only [oneEach] using hv) hm k
  · have hnone : under? v k = none := by
      cases v with
      | map es =>
        rw [hnil es rfl]
        rfl
      | _ => rfl
    rw [hnone, atop_none_right]

theorem find?_merge (hv : oneEach v) (h : u.merge v = .ok w) (k : String) (ks : List String) :
    atop (find? (k :: ks) u) (find? (k :: ks) v) = .ok (find? (k :: ks) w) := by
  apply find?_cons_of_under? (under?_merge hv h k)
  intro x y z hy hxy
  exact find?_mergeValue (oneEach_under? hv hy) hxy ks

end Doc

end WorkflowInference
