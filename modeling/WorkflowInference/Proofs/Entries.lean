import WorkflowInference.Failure
import Mathlib.Data.List.Induction

/-!
Look-ups and writes in the entries of a map. At text keys the look-up by equality of documents and
the look-up by text agree, and a text key equals no other key than itself.
-/
namespace WorkflowInference

open List

namespace Doc

variable {d : Doc} {k : String}

theorem numEq_str (d : Doc) (k : String) : numEq d (.str k) = false := by
  have hnone : dyadic? (.str k) = none := rfl
  unfold numEq
  rw [hnone]
  split
  · rename_i h
    cases h
  · split
    · rename_i h
      cases h
    · rfl

@[simp] theorem eq_str_iff : Doc.eq d (.str k) ↔ d = .str k := by
  cases d <;> simp [Doc.eq, numEq_str]

@[simp] theorem beq_str_iff : (d == .str k) ↔ d = .str k := eq_str_iff

theorem str_eq_iff : Doc.eq (.str k) d ↔ d = .str k := by
  cases d with
  | str s =>
    simp only [Doc.eq, beq_iff_eq, str.injEq]
    exact eq_comm
  | _ => simp [Doc.eq]

end Doc

namespace Entries

variable {es fs : Entries} {k l : String} {v w x y : Doc} {e : Doc × Doc}

@[simp] theorem get?_nil : get? [] k = none := rfl

theorem get?_cons_ne (h : x ≠ .str k) : get? ((x, v) :: es) k = get? es k := by
  cases x <;> simp_all [get?]

theorem put_cons_ne (h : x ≠ .str k) : put ((x, w) :: es) k v = (x, w) :: put es k v := by
  cases x <;> simp_all [put]

theorem at?_str : at? es (.str k) = get? es k := by
  induction es with
  | nil => rfl
  | cons e es ih =>
    obtain ⟨l, v⟩ := e
    cases l <;> simp_all [at?, get?]

theorem write_str : write es (.str k) v = put es k v := by
  induction es with
  | nil => rfl
  | cons e es ih =>
    obtain ⟨l, w⟩ := e
    cases l <;> simp_all [write, put]

theorem get?_put : get? (put es k v) l = if k = l then some v else get? es l := by
  fun_induction put es k v with
  | case1 => simp [get?]
  | case2 => by_cases h : k = l <;> simp [get?, h]
  | case3 s _ _ hs ih =>
    rw [get?, ih, get?]
    rcases eq_or_ne s l with rfl | hl
    · simp [Ne.symm hs]
    · simp [hl]
  | case4 e _ _ ih =>
    obtain ⟨x, w⟩ := e
    cases x <;> simp_all [get?]

@[simp] theorem get?_put_self : get? (put es k v) k = some v := by rw [get?_put, if_pos rfl]

theorem get?_put_ne (h : k ≠ l) : get? (put es k v) l = get? es l := by rw [get?_put, if_neg h]

theorem put_put : put (put es k v) k w = put es k w := by
  induction es with
  | nil => simp [put]
  | cons e es ih =>
    obtain ⟨x, a⟩ := e
    cases x with
    | str s => by_cases h : s = k <;> simp [put, h, ih]
    | _ => simp [put, ih]

theorem has_put : has (put es k v) l = (decide (k = l) || has es l) := by
  unfold has
  rw [get?_put]
  split <;> simp [*]

theorem get?_remove_ne (h : k ≠ l) : get? (remove es k) l = get? es l := by
  fun_induction remove es k with
  | case1 => rfl
  | case2 => simp [get?, h]
  | case3 _ _ _ _ ih => rw [get?, ih, get?]
  | case4 e _ _ ih =>
    obtain ⟨x, w⟩ := e
    cases x <;> simp_all [get?]

theorem remove_sublist (es : Entries) (k : String) : (remove es k).Sublist es := by
  fun_induction remove es k with
  | case1 => exact .slnil
  | case2 => exact sublist_cons_self _ _
  | case3 _ _ _ _ ih => exact ih.cons_cons _
  | case4 _ _ _ ih => exact ih.cons_cons _

theorem mem_of_mem_remove (h : e ∈ remove es k) : e ∈ es := (remove_sublist es k).subset h

theorem mem_of_at? (h : at? es x = some v) : ∃ y, (y, v) ∈ es ∧ Doc.eq y x := by
  induction es with
  | nil => cases h
  | cons e es ih =>
    obtain ⟨y, w⟩ := e
    simp only [at?] at h
    split at h
    · rename_i heq
      cases h
      exact ⟨y, mem_cons_self, heq⟩
    · obtain ⟨z, hz, heq⟩ := ih h
      exact ⟨z, mem_cons_of_mem _ hz, heq⟩

theorem mem_of_get? (h : get? es k = some v) : (.str k, v) ∈ es := by
  obtain ⟨y, hy, heq⟩ := mem_of_at? (at?_str.trans h)
  rwa [Doc.eq_str_iff.mp heq] at hy

theorem has_of_mem (h : (.str k, v) ∈ es) : has es k := by
  unfold has
  fun_induction get? es k with
  | case1 => cases h
  | case2 => rfl
  | case3 _ _ _ hs ih => exact ih ((mem_cons.mp h).resolve_left (by rintro ⟨⟩; exact hs rfl))
  | case4 _ _ hne ih => exact ih ((mem_cons.mp h).resolve_left fun heq => hne _ _ heq.symm)

theorem has_iff_mem : has es k ↔ Doc.str k ∈ es.map (·.1) := by
  constructor
  · intro h
    obtain ⟨v, hv⟩ := Option.isSome_iff_exists.mp h
    exact mem_map.mpr ⟨_, mem_of_get? hv, rfl⟩
  · intro h
    obtain ⟨⟨m, v⟩, hmem, rfl⟩ := mem_map.mp h
    exact has_of_mem hmem

theorem isSome_at? : (at? es x).isSome = es.any fun e => Doc.eq e.1 x := by
  induction es with
  | nil => rfl
  | cons e es ih =>
    obtain ⟨l, v⟩ := e
    simp only [at?, any_cons]
    by_cases h : Doc.eq l x <;> simp [h, ih]

theorem keys_write (es : Entries) (x v : Doc) :
    keys (write es x v) = keys es ∨ keys (write es x v) = keys es ++ [x] := by
  induction es with
  | nil => exact .inr rfl
  | cons e es ih =>
    obtain ⟨l, w⟩ := e
    by_cases h : Doc.eq l x
    · exact .inl (by simp [write, h, keys])
    · simp only [write, h, keys, map_cons] at ih ⊢
      rcases ih with ih | ih
      · exact .inl (by simp [ih])
      · exact .inr (by simp [ih])

theorem keys_write_of_isSome (h : (at? es x).isSome) : keys (write es x v) = keys es := by
  fun_induction write es x v with
  | case1 => cases h
  | case2 => rfl
  | case3 _ _ _ hl ih =>
    rw [at?, if_neg hl] at h
    exact congrArg (_ :: ·) (ih h)

theorem mem_keys_write (h : y ∈ keys es) : y ∈ keys (write es x v) := by
  rcases keys_write es x v with hk | hk
  · rwa [hk]
  · rw [hk]
    exact mem_append_left _ h

theorem mem_keys_update (h : y ∈ keys es) : y ∈ keys (update es fs) := by
  unfold update
  induction fs generalizing es with
  | nil => exact h
  | cons f fs ih => exact ih (mem_keys_write h)

theorem isSome_at?_iff : (at? es x).isSome ↔ ∃ y ∈ keys es, Doc.eq y x := by
  simp [isSome_at?, keys]

theorem isSome_at?_congr (h : keys es = keys fs) : (at? es x).isSome = (at? fs x).isSome := by
  rw [Bool.eq_iff_iff, isSome_at?_iff, isSome_at?_iff, h]

theorem isSome_at?_update (h : (at? es x).isSome) : (at? (update es fs) x).isSome := by
  obtain ⟨y, hy, heq⟩ := isSome_at?_iff.mp h
  exact isSome_at?_iff.mpr ⟨y, mem_keys_update hy, heq⟩

theorem mem_write (h : e ∈ write es x v) : e ∈ es ∨ (e.1 = x ∨ Doc.eq e.1 x) ∧ e.2 = v := by
  fun_induction write es x v with
  | case1 =>
    cases mem_singleton.mp h
    exact .inr ⟨.inl rfl, rfl⟩
  | case2 _ _ _ heq =>
    rcases mem_cons.mp h with rfl | h
    · exact .inr ⟨.inr heq, rfl⟩
    · exact .inl (mem_cons_of_mem _ h)
  | case3 _ _ _ _ ih =>
    rcases mem_cons.mp h with rfl | h
    · exact .inl mem_cons_self
    · exact (ih h).imp_left (mem_cons_of_mem _)

theorem get?_write_ne (h : x ≠ .str k) : get? (write es x v) k = get? es k := by
  fun_induction write es x v with
  | case1 => cases x <;> simp_all [get?]
  | case2 m _ _ heq =>
    -- the key that is written in place is no text either, or it is `x` itself
    have hm : m ≠ .str k := by
      rintro rfl
      exact h (Doc.str_eq_iff.mp heq)
    cases m <;> simp_all [get?]
  | case3 m => cases m <;> simp_all [get?]

theorem mem_write_str (h : e ∈ write es (.str k) v) : e ∈ es ∨ e = (.str k, v) :=
  (mem_write h).imp_right fun ⟨hk, hv⟩ => Prod.ext (hk.elim id Doc.eq_str_iff.mp) hv

theorem mem_put (h : e ∈ put es k v) : e ∈ es ∨ e = (.str k, v) := by
  rw [← write_str] at h
  exact mem_write_str h

theorem mem_update_of_str (hfs : ∀ f ∈ fs, ∃ k, f.1 = .str k) (h : e ∈ update es fs) :
    e ∈ es ∨ e ∈ fs := by
  revert h
  refine foldlRecOn (motive := fun gs => e ∈ gs → e ∈ es ∨ e ∈ fs) fs _ .inl fun gs ih f hf h => ?_
  obtain ⟨k, hk⟩ := hfs f hf
  rw [hk] at h
  rcases mem_write_str h with h | h
  · exact ih h
  · exact .inr (by rwa [h, ← hk])

theorem has_update : has (update es fs) k ↔ has es k ∨ has fs k := by
  unfold update
  induction fs generalizing es with
  | nil => simp [has]
  | cons f fs ih =>
    have hwrite : has (write es f.1 f.2) k ↔ has es k ∨ f.1 = .str k := by
      by_cases hf : f.1 = .str k
      · simp [hf, write_str, has_put]
      · rw [has_iff_mem, has_iff_mem]
        rcases keys_write es f.1 f.2 with hk | hk <;> simp only [keys] at hk <;>
          simp [hk, hf, Ne.symm hf]
    rw [foldl_cons, ih, hwrite, has_iff_mem, has_iff_mem, has_iff_mem, map_cons, mem_cons, or_assoc,
      eq_comm (b := f.1)]

theorem write_of_at? {k : Doc} (h : at? es k = some w) : write es k w = es := by
  fun_induction at? es k with
  | case1 => cases h
  | case2 _ _ _ heq =>
    cases h
    rw [write, if_pos heq]
  | case3 _ _ _ hne ih => rw [write, if_neg hne, ih h]

theorem put_of_get? (h : get? es s = some v) : put es s v = es := by
  rw [← write_str]
  rw [← at?_str] at h
  exact write_of_at? h

theorem put_of_get?_none (h : get? es k = none) : put es k v = es ++ [(.str k, v)] := by
  fun_induction get? es k <;> simp_all [put]

theorem foldlM_put {α : Type} {as : List α} {one : Entries → α → Result Entries} {key : α → String}
    {val : α → Doc} (hone : ∀ es, ∀ a ∈ as, one es a = .ok (put es (key a) (val a)))
    (hkeys : (as.map key).Nodup) :
    as.foldlM one [] = .ok (as.map fun a => (.str (key a), val a)) := by
  induction as using reverseRecOn with
  | nil => rfl
  | append_singleton as a ih =>
    rw [map_append, nodup_append] at hkeys
    have hnew : get? (as.map fun a => (Doc.str (key a), val a)) (key a) = none := by
      refine Option.eq_none_iff_forall_ne_some.mpr fun v hv => ?_
      obtain ⟨b, hb, heq⟩ := mem_map.mp (mem_of_get? hv)
      exact hkeys.2.2 _ (mem_map_of_mem hb) _ (mem_singleton.mpr rfl)
        (Doc.str.inj (Prod.mk.inj heq).1)
    rw [foldlM_append, ih (fun es b hb => hone es b (mem_append_left _ hb)) hkeys.1]
    change foldlM one _ [a] = _
    rw [foldlM_cons, hone _ a (by simp), put_of_get?_none hnew, map_append]
    rfl

structure Proper (es : Entries) : Prop where
  texts : ∀ e ∈ es, ∃ k, e.1 = .str k
  nodup : (keys es).Nodup

theorem Proper.get?_eq (h : Proper es) (hv : (.str k, v) ∈ es) : get? es k = some v := by
  obtain ⟨-, hnodup⟩ := h
  induction es with
  | nil => cases hv
  | cons e es ih =>
    obtain ⟨x, w⟩ := e
    rw [keys, map_cons, nodup_cons] at hnodup
    rcases mem_cons.mp hv with heq | hv
    · cases heq
      simp [get?]
    · have hne : x ≠ .str k := fun heq => hnodup.1 (mem_map.mpr ⟨_, hv, heq.symm⟩)
      rw [get?_cons_ne hne, ih hv hnodup.2]

theorem get?_update_ne (hfs : ∀ f ∈ fs, f.1 ≠ .str k) : get? (update es fs) k = get? es k := by
  unfold update
  induction fs generalizing es with
  | nil => rfl
  | cons f fs ih =>
    rw [foldl_cons, ih fun g hg =>
      hfs g (mem_cons_of_mem _ hg), get?_write_ne (hfs f mem_cons_self)]

theorem get?_update_of_proper (h : Proper fs) (hv : get? fs k = some v) :
    get? (update es fs) k = some v := by
  obtain ⟨htexts, hnodup⟩ := h
  induction fs generalizing es with
  | nil => cases hv
  | cons f fs ih =>
    obtain ⟨l, hl⟩ := htexts f mem_cons_self
    obtain ⟨x, w⟩ := f
    cases hl
    rw [keys, map_cons, nodup_cons] at hnodup
    have hrest : ∀ g ∈ fs, ∃ k, g.1 = .str k := fun g hg => htexts g (mem_cons_of_mem _ hg)
    change get? (update (write es (.str l) w) fs) k = some v
    by_cases hlk : l = k
    · subst hlk
      rw [get?, if_pos rfl] at hv
      cases hv
      rw [get?_update_ne fun g hg heq => hnodup.1 (mem_map.mpr ⟨g, hg, heq⟩), write_str,
        get?_put_self]
    · rw [get?, if_neg hlk] at hv
      exact ih hv hrest hnodup.2

end Entries

namespace Keyed

variable {α : Type} {es fs : List (String × α)} {k l : String} {v : α} {e : String × α}

theorem lookup_put : (put es k v).lookup l = if k = l then some v else es.lookup l := by
  have hfirst (w : α) (es) : lookup l ((k, w) :: es) = if k = l then some w else es.lookup l := by
    by_cases h : k = l
    · simp [h]
    · simp [h, lookup_cons, beq_false_of_ne (Ne.symm h)]
  fun_induction put es k v with
  | case1 => exact hfirst v []
  | case2 => simp_all
  | case3 m w es hm ih =>
    rw [lookup_cons, lookup_cons, ih]
    by_cases hl : l = m
    · simp [hl, Ne.symm hm]
    · simp [beq_false_of_ne hl]

theorem has_put : has (put es k v) l = (decide (k = l) || has es l) := by
  unfold has
  rw [lookup_put]
  split <;> simp [*]

theorem has_update : has (update es fs) k ↔ has es k ∨ has fs k := by
  unfold update
  induction fs generalizing es with
  | nil => simp [has]
  | cons f fs ih =>
    obtain ⟨l, v⟩ := f
    rw [foldl_cons, ih, has_put]
    by_cases h : l = k
    · simp [h, has]
    · simp [h, has, lookup_cons, beq_false_of_ne (Ne.symm h)]

theorem mem_of_lookup (h : es.lookup k = some v) : (k, v) ∈ es := by
  obtain ⟨before, after, rfl, -⟩ := lookup_eq_some_iff.mp h
  exact mem_append_right _ mem_cons_self

theorem mem_put (h : e ∈ put es k v) : e ∈ es ∨ e = (k, v) := by
  fun_induction put es k v with
  | case1 => exact .inr (mem_singleton.mp h)
  | case2 =>
    rcases mem_cons.mp h with rfl | h
    · exact .inr rfl
    · exact .inl (mem_cons_of_mem _ h)
  | case3 _ _ _ _ ih =>
    rcases mem_cons.mp h with rfl | h
    · exact .inl mem_cons_self
    · exact (ih h).imp_left (mem_cons_of_mem _)

theorem mem_update (h : e ∈ update es fs) : e ∈ es ∨ e ∈ fs := by
  revert h
  refine foldlRecOn (motive := fun gs => e ∈ gs → e ∈ es ∨ e ∈ fs) fs _ .inl fun gs ih f hf h => ?_
  rcases mem_put h with h | rfl
  · exact ih h
  · exact .inr hf

end Keyed

theorem eraseDups_spec {α : Type} [BEq α] {as : List α}
    (h : ∀ a ∈ as, ∀ b ∈ as, ((a == b) ↔ a = b)) :
    as.eraseDups.Nodup ∧ ∀ x, x ∈ as.eraseDups ↔ x ∈ as := by
  induction hn : as.length using Nat.strongRecOn generalizing as with
  | _ n ih =>
    cases as with
    | nil => simp
    | cons a as =>
      let rest := as.filter fun b => !b == a
      have hmem : ∀ b, b ∈ rest ↔ b ∈ as ∧ b ≠ a := by
        intro b
        rw [mem_filter]
        refine and_congr_right fun hb => ?_
        rw [Bool.not_eq_true', ← Bool.not_eq_true, h b (mem_cons_of_mem _ hb) a mem_cons_self]
      have hlt : rest.length < n := hn ▸ Nat.lt_succ_of_le (length_filter_le _ _)
      obtain ⟨hnodup, hiff⟩ := ih _ hlt (fun b hb c hc =>
        h b (mem_cons_of_mem _ ((hmem b).mp hb).1) c (mem_cons_of_mem _ ((hmem c).mp hc).1)) rfl
      rw [eraseDups_cons, nodup_cons]
      refine ⟨⟨fun ha => ((hmem a).mp ((hiff a).mp ha)).2 rfl, hnodup⟩, fun x => ?_⟩
      rw [mem_cons, mem_cons, hiff x, hmem x]
      by_cases hx : x = a <;> simp [hx]

end WorkflowInference
