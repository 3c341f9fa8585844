import WorkflowInference.Assembly.Step
import WorkflowInference.Proofs.Path

/-!
Names of workflows made from texts. The parts of a path are joined by underscores, and spaces become
underscores. The slashes at the start go before the spaces there, and the underscores before spaces
become underscores, so that a slash or an underscore can be left at the start.
-/
namespace WorkflowInference

open List hiding splitOn

namespace Text

variable {u v : List Char} {a b s : String} {ps : List String}

theorem spaced_append (hv : v ≠ []) :
    spaced (u ++ '_' :: v) ↔ spaced u ∧ spaced v ∧ v.head? ≠ some '_' := by
  induction u with
  | nil =>
    obtain ⟨c, cs, rfl⟩ := exists_cons_of_ne_nil hv
    simp [spaced, and_comm]
  | cons c u ih =>
    cases u with
    | nil => simp_all [spaced]
    | cons d u => simp_all [spaced, and_assoc]

theorem isPlain_append (ha : a ≠ "") (hb : b ≠ "") :
    isPlain (a ++ "_" ++ b) ↔ isPlain a ∧ isPlain b := by
  obtain ⟨c, cs, hc⟩ := exists_cons_of_ne_nil (mt String.toList_eq_nil_iff.mp ha)
  have happ := spaced_append (u := a.toList) (mt String.toList_eq_nil_iff.mp hb)
  simp_all [isPlain]
  tauto

theorem mem_join {c : Char} {sep : String} :
    c ∈ (join sep ps).toList ↔ (∃ p ∈ ps, c ∈ p.toList) ∨ 1 < ps.length ∧ c ∈ sep.toList := by
  induction ps with
  | nil => simp [join]
  | cons p ps ih =>
    obtain rfl | hps := eq_or_ne ps []
    · simp [join]
    · have hlen := length_pos_iff.mpr hps
      simp only [join_cons hps, String.toList_append, mem_append, ih, mem_cons, exists_eq_or_imp,
        length_cons, Nat.lt_add_left_iff_pos, hlen, true_and]
      grind

theorem join_ne_empty (hps : ps ≠ []) (h : ∀ p ∈ ps, p ≠ "") : join "_" ps ≠ "" := by
  obtain ⟨p, qs, rfl⟩ := exists_cons_of_ne_nil hps
  obtain rfl | hqs := eq_or_ne qs []
  · simpa [join] using h
  · simp [join_cons hqs]

theorem head?_join {c : Char} {sep : String} (hne : ∀ p ∈ ps, p ≠ "") (h : ∀ p ∈ ps, c ∉ p.toList) :
    (join sep ps).toList.head? ≠ some c := by
  obtain _ | ⟨p, ps⟩ := ps
  · simp [join]
  · obtain ⟨d, cs, hd⟩ :=
      exists_cons_of_ne_nil (mt String.toList_eq_nil_iff.mp (hne p mem_cons_self))
    have hc := h p mem_cons_self
    rw [hd] at hc
    obtain rfl | hps := eq_or_ne ps []
    · simpa [join, hd] using Ne.symm (ne_of_not_mem_cons hc)
    · simpa [join_cons hps, hd] using Ne.symm (ne_of_not_mem_cons hc)

theorem isPlain_join (h : ∀ p ∈ ps, p ≠ "") : isPlain (join "_" ps) ↔ ∀ p ∈ ps, isPlain p := by
  induction ps with
  | nil => exact iff_of_true rfl nofun
  | cons p ps ih =>
    obtain ⟨hp, h⟩ := forall_mem_cons.mp h
    by_cases hps : ps = []
    · simp [hps, join]
    · rw [join_cons hps, isPlain_append hp (join_ne_empty hps h), ih h, forall_mem_cons]

def underlined (c : Char) : Char := if c = ' ' then '_' else c

theorem map_underlined (h : ' ' ∉ u) : u.map underlined = u :=
  (map_congr_left fun c hc => if_neg (by rintro rfl; exact h hc)).trans (map_id u)

theorem toList_replace (s : String) : (replace s " " "_").toList = s.toList.map underlined := by
  rw [toList_replace_char (c := ' ') rfl, map_eq_flatMap]
  refine flatMap_congr fun x _ => ?_
  by_cases hx : x = ' ' <;> simp [underlined, hx]

theorem replace_join : replace (join "_" ps) " " "_" = join "_" (ps.map (replace · " " "_")) := by
  rw [← String.toList_inj, toList_replace]
  induction ps with
  | nil => rfl
  | cons p ps ih =>
    obtain rfl | hps := eq_or_ne ps []
    · simp [join, toList_replace]
    · rw [join_cons hps, map_cons, join_cons (by simpa using hps)]
      simp [underlined, toList_replace, ← ih]

end Text

namespace Assembly

open Text Path

variable {s p : String}

theorem toList_workflowName (s : String) :
    (workflowName s).toList =
      ((join "_" (nameParts s)).toList.dropWhile (· = '_')).map underlined := by
  simp [workflowName, toList_replace, trimStartOf]

theorem space_not_mem_workflowName (s : String) : ' ' ∉ (workflowName s).toList := by
  simp only [toList_workflowName, mem_map, underlined, not_exists, not_and]
  intro c _
  split
  · decide
  · assumption

theorem mem_nameParts :
    p ∈ nameParts s ↔ (p = root (withoutLead s) ∧ p ≠ "") ∨ p ∈ parts (withoutLead s) := by
  by_cases h : root (withoutLead s) = "" <;> simp [nameParts, h]
  grind

theorem slash_mem_workflowName : '/' ∈ (workflowName s).toList ↔ isAbsolute (withoutLead s) := by
  have hunder (c) : underlined c = '/' ↔ c = '/' := by
    unfold underlined
    split <;> simp_all
  have hdrop (l : List Char) : '/' ∈ l.dropWhile (· = '_') ↔ '/' ∈ l := by
    induction l with
    | nil => simp
    | cons c l ih => by_cases hc : c = '_' <;> simp [dropWhile, hc, ih]
  have hpart : ∀ p, p ∈ nameParts s ∧ '/' ∈ p.toList ↔ p = root (withoutLead s) ∧ p ≠ "" := by
    intro p
    rw [mem_nameParts]
    have hroot : ∀ r, IsRoot r → r ≠ "" → '/' ∈ r.toList := by
      rintro r (rfl | rfl | rfl) <;> simp
    have hp : p ∈ parts (withoutLead s) → '/' ∉ p.toList := fun h => (isPart_of_mem h).1
    grind [isRoot_root (withoutLead s)]
  simp only [toList_workflowName, mem_map, hunder, exists_eq_right, hdrop, mem_join, hpart]
  simp [isAbsolute_iff_root]

theorem trimStartOf_eq_self {c : Char} : trimStartOf (· = c) s = s ↔ s.toList.head? ≠ some c := by
  rw [← String.toList_inj, trimStartOf, String.toList_ofList]
  cases s.toList with
  | nil => simp
  | cons d cs =>
    by_cases hd : d = c
    · have hlen := (dropWhile_sublist (p := (· = c)) (l := cs)).length_le
      simp only [hd, dropWhile_cons_of_pos, head?_cons, ne_eq, not_true, iff_false, decide_true]
      intro h
      rw [h, length_cons] at hlen
      omega
    · simp [hd]

theorem head?_ne {c : Char} (h : c ∉ s.toList) : s.toList.head? ≠ some c :=
  fun hc => h (mem_of_mem_head? hc)

theorem not_isAbsolute_withoutLead (h : ' ' ∉ s.toList) : isAbsolute (withoutLead s) = false := by
  have hdrop (l cs : List Char) : l.dropWhile (· = '/') ≠ '/' :: cs := by
    induction l with
    | nil => simp
    | cons c l ih => by_cases hc : c = '/' <;> simp [dropWhile, hc, ih]
  rw [withoutLead, trimStartOf_eq_self.mpr (head?_ne ?_), ← Bool.not_eq_true, isAbsolute_iff,
    trimStartOf, String.toList_ofList]
  · exact fun ⟨cs, h⟩ => hdrop _ _ h
  · simpa [trimStartOf] using fun hmem => h ((dropWhile_sublist _).subset hmem)

/-- A name that has become safe stays as it is, unless it has underscores first or is a dot. -/
theorem workflowName_safe (h : ' ' ∉ s.toList) (hslash : '/' ∉ s.toList) :
    workflowName s = s ↔ s ≠ "." ∧ s.toList.head? ≠ some '_' := by
  have hlead : withoutLead s = s := by
    rw [withoutLead, trimStartOf_eq_self.mpr (head?_ne hslash),
      trimStartOf_eq_self.mpr (head?_ne h)]
  have hroot : root s = "" := by
    by_contra hr
    obtain ⟨cs, hcs⟩ := isAbsolute_iff.mp (isAbsolute_iff_root.mpr hr)
    simp [hcs] at hslash
  by_cases hpart : IsPart s
  · have hname : workflowName s = trimStartOf (· = '_') s := by
      have hsub := (dropWhile_sublist (p := (· = '_')) (l := s.toList)).subset
      rw [workflowName, nameParts, hlead, hroot, if_pos rfl,
        parts_of_isPart hpart, ← String.toList_inj, toList_replace, map_underlined]
      · simp [Text.join]
      · simpa [Text.join, trimStartOf] using fun hmem => h (hsub hmem)
    rw [hname, trimStartOf_eq_self, and_iff_right hpart.2.2]
  · obtain rfl | rfl : s = "" ∨ s = "." := by
      by_contra hne
      exact hpart ⟨hslash, not_or.mp hne⟩
    · decide
    · decide

theorem mem_of_mem_parts {c : Char} (hp : p ∈ parts s) (hc : c ∈ p.toList) : c ∈ s.toList := by
  have hjoin : s = Text.join "/" (splitOn "/" s) := (splitOn_slash.mp rfl).2.1
  rw [hjoin]
  exact mem_join.mpr (.inl ⟨p, (mem_filter.mp hp).1, hc⟩)

theorem underscore_not_mem (h : '_' ∉ s.toList) (hp : p ∈ nameParts s) : '_' ∉ p.toList := by
  rcases mem_nameParts.mp hp with ⟨hp, -⟩ | hp
  · rw [hp]
    obtain hr | hr | hr := isRoot_root (withoutLead s) <;> rw [hr] <;> decide
  · intro hmem
    have hlead := mem_of_mem_parts hp hmem
    rw [withoutLead, trimStartOf, trimStartOf, String.toList_ofList, String.toList_ofList] at hlead
    exact h (((dropWhile_sublist _).trans (dropWhile_sublist _)).subset hlead)

theorem isPlain_workflowName (h : '_' ∉ s.toList) :
    isPlain (workflowName s) ↔ ∀ p ∈ nameParts s, isPlain (replace p " " "_") := by
  have hne : ∀ p ∈ nameParts s, p ≠ "" :=
    fun p hp => (mem_nameParts.mp hp).elim (·.2) fun hp => (isPart_of_mem hp).2.1
  have hhead : (join "_" (nameParts s)).toList.head? ≠ some '_' :=
    head?_join hne fun p => underscore_not_mem h
  rw [workflowName, trimStartOf_eq_self.mpr hhead, replace_join, isPlain_join]
  · simp
  · exact forall_mem_map.mpr fun p hp h =>
      hne p hp (by simpa [toList_replace] using congrArg String.toList h)

/-- When the name of a text is safe, when it is a fixed point, and when no underscores stand
together or at its ends. -/
theorem workflowName_normal (s : String) :
    ' ' ∉ (workflowName s).toList ∧ ('/' ∈ (workflowName s).toList ↔ isAbsolute (withoutLead s)) ∧
      (workflowName (workflowName s) = workflowName s ↔ '/' ∉ (workflowName s).toList ∧
      workflowName s ≠ "." ∧ (workflowName s).toList.head? ≠ some '_') ∧ ('_' ∉ s.toList →
      (isPlain (workflowName s) ↔ ∀ p ∈ nameParts s, isPlain (replace p " " "_"))) := by
  refine ⟨space_not_mem_workflowName s, slash_mem_workflowName, ?_, isPlain_workflowName⟩
  by_cases hslash : '/' ∈ (workflowName s).toList
  · refine iff_of_false (fun h => ?_) (fun h => h.1 hslash)
    rw [← h, slash_mem_workflowName,
      not_isAbsolute_withoutLead (space_not_mem_workflowName s)] at hslash
    cases hslash
  · rw [workflowName_safe (space_not_mem_workflowName s) hslash]
    simp [hslash]

end Assembly

end WorkflowInference
