import WorkflowInference.Assembly.Slot
import WorkflowInference.Proofs.Logged
import WorkflowInference.Proofs.Entries

/-!
Canonical forms of types. The canonical form spells out what is written in short, but for what
stands inside of a union; a type in canonical form stays as it is.
-/
namespace WorkflowInference.Param

open Entries Result

variable {es fs : Entries} {s t u : Doc}

theorem canonicalItems_eq (es : Entries) : canonicalItems es =
    (get? es "items").elim (.error .missingKey) fun t => (canonical t).map (put es "items") := by
  induction es with
  | nil => simp [canonicalItems]
  | cons e es ih =>
    obtain ⟨k, v⟩ := e
    by_cases hk : k = .str "items"
    · subst hk
      cases hv : canonical v <;> simp [canonicalItems, get?, put, hv, Except.map]
    · rw [canonicalItems, ih, get?_cons_ne hk]
      · cases get? es "items" with
        | none => rfl
        | some t => cases hv : canonical t <;> simp [hv, Except.map, put_cons_ne hk]
      · simpa using hk

theorem canonical_array (ht : get? es "type" = some (.str "array"))
    (hi : get? es "items" = some t) :
    canonical (.map es) = (canonical t).map fun v => .map (put es "items" v) := by
  rw [canonical.eq_def]
  simp only [ht, canonicalItems_eq, hi, Option.elim]
  cases canonical t <;> rfl

theorem canonical_other (ht : get? es "type" ≠ some (.str "array")) :
    canonical (.map es) = .ok (.map es) := by
  rw [canonical]
  split
  · contradiction
  · rfl

theorem canonicalName_bare (hopt : ∀ r, cs ≠ '?' :: r) (harr : ∀ r, cs ≠ ']' :: '[' :: r) :
    canonicalName cs = .str (String.ofList cs.reverse) := by
  rw [canonicalName]
  · exact hopt
  · exact harr

theorem canonical_canonicalName (cs : List Char) :
    canonical (canonicalName cs) = .ok (canonicalName cs) := by
  induction cs using canonicalName.induct with
  | case1 rest ih => rfl
  | case2 rest ih =>
    rw [canonicalName, arrayOf, Doc.obj, canonical_array rfl rfl, ih]
    rfl
  | case3 rest hopt harr =>
    rw [canonicalName_bare hopt harr, canonical, String.toList_ofList, List.reverse_reverse,
      canonicalName_bare hopt harr]

/-- A type and its canonical form, by what the type is. -/
inductive Canonical : Doc → Doc → Prop
  | name (s : String) : Canonical (.str s) (canonicalName s.toList.reverse)
  | array {es : Entries} {t u : Doc} (ht : get? es "type" = some (.str "array"))
      (hi : get? es "items" = some t) (h : Canonical t u) :
      Canonical (.map es) (.map (put es "items" u))
  | other {es : Entries} (ht : get? es "type" ≠ some (.str "array")) : Canonical (.map es) (.map es)
  | rest {t : Doc} (hs : ∀ s, t ≠ .str s) (hm : ∀ es, t ≠ .map es) : Canonical t t

theorem Canonical.of_eq_ok {t u : Doc} (h : canonical t = .ok u) : Canonical t u := by
  match t with
  | .str s =>
    cases h
    exact .name s
  | .map es =>
    by_cases ht : get? es "type" = some (.str "array")
    · cases hi : get? es "items" with
      | none =>
        rw [canonical.eq_def] at h
        simp [ht, canonicalItems_eq, hi, Except.map] at h
      | some t =>
        rw [canonical_array ht hi] at h
        obtain ⟨v, hv, rfl⟩ := of_map h
        exact .array ht hi (of_eq_ok hv)
    · cases (canonical_other ht).symm.trans h
      exact .other ht
  | .null | .bool _ | .int _ | .float _ | .bytes _ | .date _ | .path _ | .qual .. | .list _
  | .tuple _ | .set _
  | .object .. =>
    cases h
    exact .rest nofun nofun
termination_by sizeOf t
decreasing_by
  have := List.sizeOf_lt_of_mem (mem_of_get? hi)
  simp only [Prod.mk.sizeOf_spec, Doc.map.sizeOf_spec] at *
  omega

theorem canonical_canonical (h : canonical t = .ok u) : canonical u = .ok u := by
  have hc := Canonical.of_eq_ok h
  clear h
  induction hc with
  | name s => exact canonical_canonicalName _
  | array ht hi _ ih =>
    rw [canonical_array (by rwa [get?_put_ne (by decide)]) get?_put_self, ih]
    simp [Except.map, put_of_get?]
  | other ht => exact canonical_other ht
  | rest hs hm => rw [canonical] <;> assumption

def Bare (s : String) : Prop := ∀ r : String, s ≠ r ++ "?" ∧ s ≠ r ++ "[]"

/-- Type expressions in which no name is written in short, or with `unions` none that stands inside
of a union. -/
inductive Spelt : (unions : Bool) → Doc → Prop
  | name {b s} (h : b = true ∨ Bare s) : Spelt b (.str s)
  | array {b es t} (ht : get? es "type" = some (.str "array")) (hi : get? es "items" = some t)
      (h : Spelt b t) : Spelt b (.map es)
  | other {b es} (ht : get? es "type" ≠ some (.str "array")) : Spelt b (.map es)
  | union {b ts} (h : ∀ t ∈ ts, Spelt false t) : Spelt b (.list ts)

/-- One name that is written in short is spelt out. -/
inductive Respelt : Doc → Doc → Prop
  | optional (s : String) : Respelt (.str (s ++ "?")) (optional (.str s))
  | array (s : String) : Respelt (.str (s ++ "[]")) (arrayOf (.str s))
  | items {es t t'} (ht : get? es "type" = some (.str "array")) (hi : get? es "items" = some t)
      (h : Respelt t t') : Respelt (.map es) (.map (put es "items" t'))
  | member {ts us t t'} (h : Respelt t t') :
      Respelt (.list (ts ++ t :: us)) (.list (ts ++ t' :: us))

theorem spelt_canonicalName (cs : List Char) : Spelt false (canonicalName cs) := by
  induction cs using canonicalName.induct with
  | case1 rest ih =>
    have hnull : Bare "null" := by
      intro r
      constructor <;> intro h <;> simpa using congrArg (fun s : String => s.toList.reverse) h
    refine .union ?_
    simpa using ⟨.name (.inr hnull), ih⟩
  | case2 rest ih => exact .array rfl rfl ih
  | case3 rest hopt harr =>
    rw [canonicalName_bare hopt harr]
    refine .name (.inr fun r => ⟨fun h => hopt r.toList.reverse ?_, fun h =>
      harr r.toList.reverse ?_⟩) <;> simpa using congrArg (fun s : String => s.toList.reverse) h

theorem canonicalName_of_bare {s : String} (h : Bare s) :
    canonicalName s.toList.reverse = .str s := by
  rw [canonicalName_bare, List.reverse_reverse, String.ofList_toList] <;> intro r hr
  · refine (h (String.ofList r.reverse)).1 (String.toList_inj.mp ?_)
    simpa using congrArg List.reverse hr
  · refine (h (String.ofList r.reverse)).2 (String.toList_inj.mp ?_)
    simpa using congrArg List.reverse hr

theorem Spelt.canonical (h : Spelt b t) :
    ∃ u, canonical t = .ok u ∧ Spelt false u ∧ (b = false → u = t) := by
  induction h with
  | name h =>
    exact ⟨_, rfl, spelt_canonicalName _, fun hb =>
      canonicalName_of_bare (h.resolve_left (by simp [hb]))⟩
  | array ht hi _ ih =>
    obtain ⟨u, hu, h, hsame⟩ := ih
    refine ⟨_, by rw [canonical_array ht hi, hu]; rfl,
      .array (by rwa [get?_put_ne (by decide)]) get?_put_self h, ?_⟩
    intro hb
    rw [put_of_get? (hsame hb ▸ hi)]
  | other ht => exact ⟨_, canonical_other ht, .other ht, fun _ => rfl⟩
  | union h => exact ⟨_, rfl, .union h, fun _ => rfl⟩

theorem Spelt.items (h : Spelt b (.map es)) (ht : get? es "type" = some (.str "array"))
    (hi : get? es "items" = some t) : Spelt b t := by
  cases h with
  | array _ hi' h => exact Option.some.inj (hi'.symm.trans hi) ▸ h
  | other ht' => exact absurd ht ht'

theorem spelt_of_canonical (h : Canonical t u) (hu : Spelt false u) : Spelt true t := by
  induction h with
  | name s => exact .name (.inl rfl)
  | array ht hi _ ih =>
    exact .array ht hi (ih (hu.items (by rwa [get?_put_ne (by decide)]) get?_put_self))
  | other ht => exact .other ht
  | rest hs hm =>
    cases hu with
    | union h => exact .union h
    | name => exact absurd rfl (hs _)
    | _ => exact absurd rfl (hm _)

theorem Respelt.not_spelt (h : Respelt t t') : ¬ Spelt false t := by
  intro hs
  induction h with
  | optional s =>
    cases hs with
    | name h => exact (h.resolve_left nofun s).1 rfl
  | array s =>
    cases hs with
    | name h => exact (h.resolve_left nofun s).2 rfl
  | items ht hi _ ih => exact ih (hs.items ht hi)
  | member _ ih =>
    cases hs with
    | union h => exact ih (h _ (by simp))

theorem Respelt.canonical_eq {t' : Doc} (h : Respelt t t') (hs : Spelt true t)
    (hs' : Spelt true t') : canonical t' = canonical t := by
  induction h with
  | optional s =>
    cases hs' with
    | union h =>
      cases h (.str s) (by simp) with
      | name h =>
        have hname := canonicalName_of_bare (h.resolve_left nofun)
        simp [canonical, canonicalName, Param.optional, hname]
  | array s =>
    rw [arrayOf, Doc.obj, canonical_array rfl rfl]
    simp [canonical, canonicalName, arrayOf, Doc.obj, Except.map, put]
  | @items es t t' ht hi _ ih =>
    have hitems := hs'.items (by rwa [get?_put_ne (by decide)]) get?_put_self
    rw [canonical_array (by rwa [get?_put_ne (by decide)]) get?_put_self, canonical_array ht hi,
      ih (hs.items ht hi) hitems]
    simp only [put_put]
  | member h _ =>
    cases hs with
    | union hs => exact absurd (hs _ (by simp)) h.not_spelt

/-- What is canonical has no short name, unless one stands in a union of the type itself. -/
theorem canonical_normal_form (t : Doc) : (Spelt true t → ∃ u, canonical t = .ok u) ∧
    ∀ u, canonical t = .ok u → canonical u = .ok u ∧ (Spelt false u ↔ Spelt true t) ∧
      ∀ t', Respelt t t' → Spelt true t → Spelt true t' → canonical t' = .ok u := by
  refine ⟨fun h => h.canonical.imp fun _ h => h.1, fun u hu =>
    ⟨canonical_canonical hu, ⟨spelt_of_canonical (.of_eq_ok hu), ?_⟩, ?_⟩⟩
  · intro h
    obtain ⟨v, hv, hspelt, -⟩ := h.canonical
    cases hu.symm.trans hv
    exact hspelt
  · intro t' h hs hs'
    rw [h.canonical_eq hs hs', hu]

def alternatives : Doc → List Doc
  | .list ts => ts
  | t => [t]

end WorkflowInference.Param

namespace WorkflowInference.Assembly

open Param

variable {t u : Doc} {xs : List Doc}

/-- A type that admits no value, as it is written. -/
def Nullable (t : Doc) : Prop :=
  t = .str "null" ∨ (∃ s, t = .str (s ++ "?")) ∨ ∃ ts, t = .list ts ∧ .str "null" ∈ ts

theorem alternatives_union (h : ∀ x ∈ xs, x.isList = false) : alternatives (union xs) = xs := by
  unfold union
  split
  · rename_i x
    have := h x (by simp)
    cases x <;> simp_all [alternatives, Doc.isList]
  · rfl

theorem splitType_list (xs : List Doc) : splitType (.list xs) =
    .ok (union (xs.filter fun x => !(x == .str "null")), !(xs.any (· == .str "null"))) := rfl

theorem splitType_single (hn : t.isNull = false) (hu : canonical t = .ok u)
    (hl : u.isList = false) : splitType t = .ok (u, true) := by
  unfold splitType
  rw [hn, hu]
  cases u <;> first | rfl | cases hl

theorem writtenAll_eq (xs : List Doc) : writtenAll xs = xs.map written := by
  induction xs with
  | nil => rfl
  | cons x xs ih => rw [writtenAll, ih, List.map]

theorem beq_str_eq_false : (t == .str k) = false ↔ t ≠ .str k := by
  rw [← Bool.not_eq_true, Doc.beq_str_iff]

def Apart (t : Doc) : Prop := Spelt false t ∧ t.isList = false ∧ t ≠ .str "null"

theorem any_null (hx : ∀ x ∈ xs, Apart x) : xs.any (· == .str "null") = false :=
  List.any_eq_false.mpr fun x h => by simp [(hx x h).2.2]

theorem declared_union {f : Facts} (hf : f.type = union xs) (hx : ∀ x ∈ xs, Apart x)
    (hw : xs.map written = xs) :
    f.declared = if f.required then union xs else .list (.str "null" :: xs) := by
  unfold Facts.declared
  rw [hf]
  obtain _ | ⟨x, _ | ⟨y, ys⟩⟩ := xs
  · rfl
  · obtain ⟨hs, hl, -⟩ := hx x (by simp)
    cases hs <;> simp_all [union, Doc.isNull, Doc.isList]
  · simp only [union, Doc.isNull, Bool.false_eq_true, if_false, any_null hx, written,
      writtenAll_eq, hw]

theorem splitType_declared {f : Facts} (hf : f.type = union xs) (hx : ∀ x ∈ xs, Apart x)
    (hw : xs.map written = xs) : splitType f.declared = .ok (union xs, f.required) := by
  have hnull : (Doc.str "null" == .str "null") := by simp
  have hrest : xs.filter (fun x => !(x == .str "null")) = xs := by
    simpa [beq_str_eq_false] using fun x h => (hx x h).2.2
  rw [declared_union hf hx hw]
  cases f.required
  · simp [splitType_list, hrest, hnull]
  · obtain _ | ⟨x, _ | ⟨y, ys⟩⟩ := xs
    · rfl
    · obtain ⟨hs, hl, -⟩ := hx x (by simp)
      obtain ⟨u, hu, -, hsame⟩ := hs.canonical
      exact splitType_single (by cases hs <;> rfl) (hsame rfl ▸ hu) hl
    · change splitType (.list (x :: y :: ys)) = _
      rw [splitType_list, hrest, any_null hx]
      rfl

theorem null_mem_alternatives (h : Canonical t u) : .str "null" ∈ alternatives u ↔ Nullable t := by
  cases h with
  | name s =>
    have hshort (r : String) : s = r ++ "?" ↔ s.toList.reverse = '?' :: r.toList.reverse := by
      rw [← String.toList_inj, ← List.reverse_inj]
      simp
    generalize hcs : s.toList.reverse = cs at hshort
    have hs : s = String.ofList cs.reverse := by simp [← hcs]
    unfold canonicalName
    split
    · simp [alternatives, Param.optional, Nullable, hs]
    · have hnull : s ≠ "null" := by
        rintro rfl
        cases hcs
      simp [alternatives, arrayOf, Doc.obj, Nullable, hshort, hnull]
    · rename_i hopt _
      have hno (r : String) : s ≠ r ++ "?" := mt (hshort r).mp (hopt _)
      simp [alternatives, Nullable, hno, ← hs, eq_comm]
  | array => simp [alternatives, Nullable]
  | other => simp [alternatives, Nullable]
  | rest hs hm => cases t <;> simp_all [alternatives, Nullable]

theorem declared_settles (f : Facts) (ht : Spelt true t) (hu : canonical t = .ok u)
    (hflat : ∀ xs, u = .list xs → ∀ x ∈ xs, x.isList = false) (hw : written u = u) :
    ∃ g, f.setType t = .ok g ∧ g.setType g.declared = .ok g ∧
      (∀ a, a ∈ alternatives g.declared ↔ a ∈ alternatives u) ∧
      (.str "null" ∈ alternatives g.declared ↔ Nullable t) := by
  have hn : t.isNull = false := by cases ht <;> rfl
  obtain ⟨u, hu', hs, -⟩ := ht.canonical
  cases hu.symm.trans hu'
  rw [← null_mem_alternatives (.of_eq_ok hu)]
  suffices hset : ∃ g, f.setType t = .ok g ∧ g.setType g.declared = .ok g ∧
      ∀ a, a ∈ alternatives g.declared ↔ a ∈ alternatives u by
    obtain ⟨g, hg, hagain, hsame⟩ := hset
    exact ⟨g, hg, hagain, hsame, hsame _⟩
  cases hl : u.isList with
  | false =>
    have hnu : u.isNull = false := by cases hs <;> rfl
    have hdecl : { f with type := u, required := true : Facts }.declared = u := by
      simp [Facts.declared, hnu, hw]
    refine ⟨{ f with type := u, required := true }, ?_, ?_, by simp [hdecl]⟩
    · rw [Facts.setType, splitType_single hn hu hl]
      rfl
    · rw [hdecl, Facts.setType, splitType_single hnu (canonical_canonical hu) hl]
      rfl
  | true =>
    cases hs with
    | @union _ xs hs =>
      generalize hrest : (xs.filter fun x => !(x == .str "null")) = rest
      have hmem (x) : x ∈ rest ↔ x ∈ xs ∧ x ≠ .str "null" := by simp [← hrest, beq_str_eq_false]
      have hx : ∀ x ∈ rest, Apart x := fun x hx =>
        ⟨hs x ((hmem x).mp hx).1, hflat xs rfl x ((hmem x).mp hx).1, ((hmem x).mp hx).2⟩
      have hwritten : rest.map written = rest := by
        rw [written, writtenAll_eq, Doc.list.injEq] at hw
        have hsame : ∀ x ∈ xs, written x = id x := List.map_inj_left.mp (by rw [hw, List.map_id])
        rw [List.map_congr_left fun x h => hsame x ((hmem x).mp h).1, List.map_id]
      refine ⟨{ f with type := union rest, required := !(xs.any (· == .str "null")) }, ?_, ?_,
        fun a => ?_⟩
      · subst hrest
        unfold Facts.setType splitType
        rw [hn, hu]
        rfl
      · rw [Facts.setType, splitType_declared rfl hx hwritten]
        rfl
      · rw [declared_union rfl hx hwritten]
        cases hnull : xs.any (· == .str "null") with
        | true =>
          obtain ⟨n, hn, rfl⟩ : ∃ n ∈ xs, n = .str "null" := by simpa using hnull
          by_cases ha : a = .str "null" <;> simp [alternatives, hmem, ha, hn]
        | false =>
          have hno : .str "null" ∉ xs :=
            fun h => by simp [List.any_eq_false] at hnull; exact hnull _ h rfl
          have hne (h : a ∈ xs) : a ≠ .str "null" := fun ha => hno (ha ▸ h)
          simp only [Bool.not_false, if_true, alternatives_union fun x h => (hx x h).2.1, hmem]
          exact and_iff_left_of_imp hne
    | _ => cases hl

theorem declared_settles_optional :
    ∃ g, Facts.setType ⟨"x", .null, true⟩ (.str "File[]?") = .ok g ∧ g.setType g.declared = .ok g ∧
      (∀ a, a ∈ alternatives g.declared ↔ a ∈ [.str "null", arrayOf (.str "File")]) ∧
      (.str "null" ∈ alternatives g.declared ↔ Nullable (.str "File[]?")) :=
  declared_settles ⟨"x", .null, true⟩ (.name (.inl rfl)) rfl (by rintro _ ⟨⟩; decide) rfl

end WorkflowInference.Assembly
