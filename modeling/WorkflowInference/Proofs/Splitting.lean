import Mathlib.Data.List.Basic
import Mathlib.Data.List.Infix
import WorkflowInference.Workflow.Annotation

/-!
Names of steps and of slots as texts, and names taken apart again. The digits of the place stand
between underscores, so the names of two steps of one workflow differ, whatever follows them.
Splitting a text gives the pieces that it was joined from, when the separator keeps them apart. So
when the stems of workflows and the keys of steps hold no two underscores together and have none at
their ends, a name of steps inside steps splits into the names that it was joined from. A name is
read from the left, so an underscore at the end of a stem is lost to the separator behind it, and
what is read as a name need not be one.
-/
namespace WorkflowInference

section Texts

open Namespaces List

variable {i j : Nat} {a b stem : String}

namespace Text

theorem after?_eq_some : after? p cs = some rest ↔ cs = p ++ rest := by
  induction p generalizing cs with
  | nil => simp [after?]
  | cons c p ih =>
    cases cs with
    | nil => simp [after?]
    | cons d cs =>
      by_cases h : c = d
      · simp [after?, h, ih]
      · simp [after?, h, Ne.symm h]

theorem after?_isSome : (after? p cs).isSome ↔ p <+: cs := by
  rw [Option.isSome_iff_exists]
  exact exists_congr fun rest => after?_eq_some.trans eq_comm

theorem startsWith_iff : startsWith s pre ↔ pre.toList <+: s.toList := after?_isSome

theorem endsWith_iff : endsWith s suf ↔ suf.toList <:+ s.toList := by
  rw [endsWith, after?_isSome, reverse_prefix]

end Text

theorem digits_append_inj (hx : x.isDigit = false)
    (h : Nat.toDigits 10 m ++ x :: u = Nat.toDigits 10 n ++ x :: v) : m = n ∧ u = v := by
  have hdigit : ∀ k, ∀ c ∈ Nat.toDigits 10 k, c.isDigit :=
    fun k c hc => Nat.isDigit_of_mem_toDigits (by decide) (by decide) hc
  have htake : Nat.toDigits 10 m = Nat.toDigits 10 n := by
    have := congrArg (takeWhile Char.isDigit) h
    rw [takeWhile_append_of_pos (hdigit m), takeWhile_append_of_pos (hdigit n)] at this
    simpa [takeWhile_cons, hx] using this
  constructor
  · have := congrArg (fun ds => Nat.ofDigitChars 10 ds 0) htake
    simpa [Nat.ofDigitChars_toDigits] using this
  · rw [htake] at h
    simpa using h

theorem toString_place (i : Nat) :
    toString ((i : Int) + 1) = String.ofList (Nat.toDigits 10 (i + 1)) := by
  rw [← Nat.toList_repr, String.ofList_toList]
  rfl

theorem toList_stepName (stem : String) (i : Nat) (key : String) :
    (stepName stem i key).toList =
      stem.toList ++
      ("__step__".toList ++ (Nat.toDigits 10 (i + 1) ++ '_' :: '_' :: key.toList)) := by
  rw [stepName, StepName.text, toString_place]
  simp

theorem placeKey_inj (h : Workflow.placeKey i a = Workflow.placeKey j b) : i = j ∧ a = b := by
  have h := congrArg String.toList h
  simp only [Workflow.placeKey, toString_place, String.toList_append, String.toList_ofList,
    append_assoc, append_cancel_left_eq] at h
  obtain ⟨hij, hrest⟩ := digits_append_inj (x := ',') (by decide) h
  refine ⟨by omega, ?_⟩
  rw [← String.toList_inj]
  simpa using hrest

theorem stepName_append_inj (h : stepName stem i a ++ u = stepName stem j b ++ v) :
    i = j ∧ a ++ u = b ++ v := by
  have h := congrArg String.toList h
  simp only [String.toList_append, toList_stepName, append_assoc, append_cancel_left_eq,
    cons_append] at h
  obtain ⟨hij, hrest⟩ := digits_append_inj (by decide) h
  refine ⟨by omega, ?_⟩
  rw [← String.toList_inj]
  simpa using hrest

theorem stepName_inj (h : stepName stem i a = stepName stem j b) : i = j ∧ a = b := by
  have := stepName_append_inj (u := "") (v := "") (by simpa using h)
  simpa using this

theorem suffix_append_cases (h : t <:+ u ++ v) :
    t <:+ v ∨ ∃ n, n ≤ t.length ∧ t.take n <:+ u ∧ t.drop n = v := by
  obtain ⟨w, hw⟩ := h
  rcases append_eq_append_iff.mp hw with ⟨as, hu, ht⟩ | ⟨bs, -, hv⟩
  · refine .inr ⟨as.length, by simp [ht], ?_, by simp [ht]⟩
    rw [ht, take_left, hu]
    exact suffix_append w as
  · exact .inl (hv ▸ suffix_append bs t)

/-- The inputs of a step that starts a compilation of its own which tell it where to find things. -/
def pathInputs : List String := ["root_workflow_yml_path", "cachedir_path", "homedir"]

def interpreterKey : String := "cwl_subinterpreter"

def isPathName (name : String) : Bool :=
  pathInputs.any fun p => Text.endsWith name (interpreterKey ++ sep ++ p)

theorem isPathName_iff : isPathName name ↔
    ∃ p ∈ pathInputs, interpreterKey.toList ++ sep.toList ++ p.toList <:+ name.toList := by
  simp only [isPathName, any_eq_true, Text.endsWith_iff, String.toList_append]

theorem isPathName_stepName (stem : String) (i : Nat) (h : p ∈ pathInputs) :
    isPathName (stepName stem i interpreterKey ++ sep ++ p) := by
  refine isPathName_iff.mpr
    ⟨p, h, stem.toList ++ ("__step__".toList ++ (Nat.toDigits 10 (i + 1) ++ ['_', '_'])), ?_⟩
  simp [toList_stepName]

-- Where a separator may end inside such a name; checked at all places of the three texts.
private theorem pathName_cut : ∀ p ∈ pathInputs,
    ∀ n < (interpreterKey.toList ++ sep.toList ++ p.toList).length + 1,
    (interpreterKey.toList ++ sep.toList ++ p.toList).take n <:+ sep.toList ∨
      sep.toList <:+ (interpreterKey.toList ++ sep.toList ++ p.toList).take n →
    n = 0 ∨ n = (interpreterKey.toList ++ sep.toList).length := by
  decide +kernel

private theorem interpreterKey_cut :
    ∀ n < interpreterKey.toList.length + 1, interpreterKey.toList.take n <:+ ['_', '_'] ∨
      ['_', '_'] <:+ interpreterKey.toList.take n → n = 0 := by
  decide +kernel

theorem endsWith_of_stepName (h : interpreterKey.toList <:+ (stepName stem i key).toList) :
    Text.endsWith key interpreterKey := by
  have hname : (stepName stem i key).toList =
      (stem.toList ++ ("__step__".toList ++ Nat.toDigits 10 (i + 1))) ++ ['_', '_'] ++
      key.toList := by
    simp [toList_stepName]
  rw [hname] at h
  rw [Text.endsWith_iff]
  rcases suffix_append_cases h with hsuf | ⟨n, hn, htake, hdrop⟩
  · exact hsuf
  · have hcut :=
      interpreterKey_cut n (by omega) (suffix_or_suffix_of_suffix htake (suffix_append _ _))
    subst hcut
    rw [← hdrop, drop_zero]

theorem isPathName_inName (h : isPathName (stepName stem i key ++ sep ++ arg)) :
    isPathName arg ∨ arg ∈ pathInputs ∧ Text.endsWith key interpreterKey := by
  obtain ⟨p, hp, hend⟩ := isPathName_iff.mp h
  simp only [String.toList_append] at hend
  rcases suffix_append_cases hend with hsuf | ⟨n, hn, htake, hdrop⟩
  · exact .inl (isPathName_iff.mpr ⟨p, hp, hsuf⟩)
  have hcut := pathName_cut p hp n (by omega) (suffix_or_suffix_of_suffix htake (suffix_append _ _))
  rcases hcut with rfl | rfl
  · refine .inl (isPathName_iff.mpr ⟨p, hp, ?_⟩)
    rw [← hdrop, drop_zero]
  · rw [drop_left, String.toList_inj] at hdrop
    rw [take_left, suffix_append_inj_of_length_eq rfl] at htake
    exact .inr ⟨hdrop ▸ hp, endsWith_of_stepName htake.1⟩

end Texts

open List hiding splitOn

variable {u : List Char} {ns : Namespaces} {a : String}

namespace Text

section Split

variable {sep cs p v : List Char}

theorem splitChars_cons (h : after? sep (c :: cs) = none) (acc : List Char) :
    splitChars sep 0 (c :: cs) acc = splitChars sep 0 cs (c :: acc) := by
  rw [splitChars, h]
  simp

theorem splitChars_ne_nil (sep : List Char) (skip : Nat) (cs acc : List Char) :
    splitChars sep skip cs acc ≠ [] := by
  fun_induction splitChars sep skip cs acc <;> simp_all

theorem splitChars_skip (sep rest xs acc : List Char) :
    splitChars sep xs.length (xs ++ rest) acc = splitChars sep 0 rest acc := by
  induction xs with
  | nil => rfl
  | cons x xs ih => rw [length_cons, cons_append, splitChars, ih]

theorem after?_eq_none (h : ¬ sep <+: cs) : after? sep cs = none :=
  Option.not_isSome_iff_eq_none.mp (mt after?_isSome.mp h)

def Apart (sep u : List Char) : Prop := ¬ sep <:+: u ++ sep.dropLast

theorem apart_singleton : Apart [c] u ↔ c ∉ u := by
  rw [Apart, dropLast_singleton, append_nil, singleton_infix_iff]

def Parted (sep : List Char) : List (List Char) → Prop
  | [] => False
  | [u] => ¬ sep <:+: u
  | u :: v :: us => Apart sep u ∧ Parted sep (v :: us)

theorem parted_concat : Parted sep (us ++ [v]) ↔ (∀ u ∈ us, Apart sep u) ∧ ¬ sep <:+: v := by
  induction us with
  | nil => simp [Parted]
  | cons u us ih =>
    obtain ⟨w, ws, hws⟩ := exists_cons_of_ne_nil (show us ++ [v] ≠ [] by simp)
    rw [hws] at ih
    rw [cons_append, hws, Parted, ih, forall_mem_cons, and_assoc]

theorem dropLast_prefix_append (u sep rest : List Char) :
    u ++ sep.dropLast <+: u ++ (sep ++ rest) :=
  (prefix_append_right_inj u).mpr <| dropLast_prefix sep |>.trans (prefix_append sep rest)

theorem splitChars_apart (hsep : sep ≠ []) (hu : Apart sep u) (rest acc : List Char) :
    splitChars sep 0 (u ++ (sep ++ rest)) acc = (acc.reverse ++ u) :: splitChars sep 0 rest [] := by
  induction u generalizing acc with
  | nil =>
    obtain ⟨c, cs, rfl⟩ := exists_cons_of_ne_nil hsep
    have hafter : (after? (c :: cs) (c :: (cs ++ rest))).isSome :=
      after?_isSome.mpr (prefix_append (c :: cs) rest)
    rw [nil_append, cons_append, splitChars, hafter]
    simp [splitChars_skip]
  | cons c u ih =>
    rw [Apart, cons_append, infix_cons_iff, not_or] at hu
    have hnone : after? sep (c :: (u ++ (sep ++ rest))) = none := by
      refine after?_eq_none fun hpre =>
        hu.1 (prefix_of_prefix_length_le hpre (dropLast_prefix_append (c :: u) sep rest) ?_)
      simp
      omega
    rw [cons_append, splitChars_cons hnone, ih hu.2]
    simp

theorem exists_apart (hsep : sep ≠ []) (h : sep <:+: cs) :
    ∃ u rest, cs = u ++ (sep ++ rest) ∧ Apart sep u := by
  induction cs with
  | nil => exact absurd (infix_nil.mp h) hsep
  | cons c cs ih =>
    by_cases hpre : sep <+: c :: cs
    · obtain ⟨rest, hrest⟩ := hpre
      refine ⟨[], rest, hrest.symm, fun hin => ?_⟩
      have hle := hin.length_le
      have hpos := length_pos_iff.mpr hsep
      simp at hle
      omega
    · obtain ⟨u, rest, rfl, hu⟩ := ih ((infix_cons_iff.mp h).resolve_left hpre)
      refine ⟨c :: u, rest, rfl, fun hin => ?_⟩
      rcases infix_cons_iff.mp hin with hin | hin
      · exact hpre (hin.trans (dropLast_prefix_append (c :: u) sep rest))
      · exact hu hin

theorem splitChars_whole (h : ¬ sep <:+: cs) (acc : List Char) :
    splitChars sep 0 cs acc = [acc.reverse ++ cs] := by
  induction cs generalizing acc with
  | nil => simp [splitChars]
  | cons c cs ih =>
    rw [infix_cons_iff, not_or] at h
    rw [splitChars_cons (after?_eq_none h.1), ih h.2]
    simp

theorem splitChars_length (hsep : sep ≠ []) :
    1 < (splitChars sep 0 cs []).length ↔ sep <:+: cs := by
  by_cases hin : sep <:+: cs
  · obtain ⟨u, rest, rfl, hu⟩ := exists_apart hsep hin
    have hmore := length_pos_iff.mpr (splitChars_ne_nil sep 0 rest [])
    rw [splitChars_apart hsep hu]
    simp [hin, hmore]
  · rw [splitChars_whole hin]
    simp [hin]

/-- Splitting gives the pieces that a text is joined from and that the separator keeps apart. -/
theorem splitChars_eq_iff (hsep : sep ≠ []) :
    splitChars sep 0 cs [] = ps ↔ cs = sep.intercalate ps ∧ Parted sep ps := by
  constructor
  · rintro rfl
    induction hn : cs.length using Nat.strong_induction_on generalizing cs with
    | _ n ih =>
      by_cases hin : sep <:+: cs
      · obtain ⟨u, rest, rfl, hu⟩ := exists_apart hsep hin
        have hpos := length_pos_iff.mpr hsep
        obtain ⟨hrest, hparted⟩ := ih rest.length (by simp at hn; omega) rfl
        rw [splitChars_apart hsep hu, reverse_nil, nil_append]
        cases hps : splitChars sep 0 rest [] with
        | nil => exact absurd hps (splitChars_ne_nil _ _ _ _)
        | cons p ps =>
          rw [hps] at hrest hparted
          rw [intercalate_cons_cons, ← hrest]
          exact ⟨(append_assoc u sep rest).symm, hu, hparted⟩
      · rw [splitChars_whole hin]
        exact ⟨by simp, hin⟩
  · rintro ⟨rfl, hps⟩
    induction ps with
    | nil => exact hps.elim
    | cons u ps ih =>
      cases ps with
      | nil =>
        rw [intercalate_singleton]
        exact splitChars_whole hps []
      | cons v ps =>
        rw [intercalate_cons_cons, append_assoc, splitChars_apart hsep hps.1, ih hps.2]
        rfl

theorem splitOn_eq_iff {sep s : String} (hsep : sep ≠ "") {ps : List String} :
    splitOn sep s = ps ↔ s = join sep ps ∧ Parted sep.toList (ps.map String.toList) := by
  have hne : sep.toList ≠ [] := fun h => hsep (String.toList_eq_nil_iff.mp h)
  rw [← String.toList_inj, join, String.toList_intercalate, ← splitChars_eq_iff hne, splitOn]
  constructor
  · rintro rfl
    simp
  · intro h
    rw [h]
    simp

theorem join_cons {sep n : String} {ns : List String} (h : ns ≠ []) :
    join sep (n :: ns) = n ++ sep ++ join sep ns :=
  String.intercalate_cons_of_ne_nil h

theorem splitOn_join_append {sep : String} (hsep : sep ≠ "") {ns : List String}
    (hns : ∀ n ∈ ns, Apart sep.toList n.toList) (a : String) :
    splitOn sep (join sep (ns ++ [a])) = ns ++ splitOn sep a := by
  have hne : sep.toList ≠ [] := fun h => hsep (String.toList_eq_nil_iff.mp h)
  induction ns with
  | nil => rw [nil_append, join, String.intercalate_singleton, nil_append]
  | cons n ns ih =>
    rw [cons_append, cons_append, ← ih fun m hm => hns m (mem_cons_of_mem _ hm),
      join_cons (by simp), splitOn, String.append_assoc, String.toList_append, String.toList_append,
      splitChars_apart hne (hns n mem_cons_self)]
    simp [splitOn]

theorem contains_iff (h : sub ≠ "") : contains s sub ↔ sub.toList <:+: s.toList := by
  have hne : sub.toList ≠ [] := fun heq => h (String.toList_inj.mp heq)
  have hempty : sub.isEmpty = false := by simpa using h
  rw [contains, hempty, Bool.or_false, decide_eq_true_eq, splitOn, length_map]
  exact splitChars_length hne

theorem infix_of_apart (hmid : mid ≠ []) (hapart : ∀ c ∈ mid, c ∉ p) (h : p <:+: u ++ (mid ++ v)) :
    p <:+: u ∨ p <:+: v := by
  have hnil : ∀ l, l <:+: mid → l ⊆ p → l = [] := fun l hl hp =>
    eq_nil_iff_forall_not_mem.mpr fun c hc => hapart c (hl.subset hc) (hp hc)
  rcases infix_append_iff.mp h with h | h | ⟨l₁, l₂, rfl, h₁, h₂⟩
  · exact .inl h
  · rcases infix_append_iff.mp h with h | h | ⟨l₁, l₂, rfl, h₁, h₂⟩
    · rw [hnil p h fun _ => id]
      exact .inl nil_infix
    · exact .inr h
    · rw [hnil l₁ h₁.isInfix (subset_append_left l₁ l₂)]
      exact .inr h₂.isInfix
  · obtain ⟨c, mid, rfl⟩ := exists_cons_of_ne_nil hmid
    cases l₂ with
    | nil =>
      rw [append_nil]
      exact .inl h₁.isInfix
    | cons d l₂ =>
      rw [cons_append, cons_prefix_cons] at h₂
      exact absurd (by simp [h₂.1]) (hapart c mem_cons_self)

theorem infix_of_concat (h : p ++ [b] <:+: u ++ [c]) : p <:+: u := by
  rcases infix_concat_iff.mp h with ⟨x, hx⟩ | h
  · rw [← append_assoc] at hx
    exact ⟨x, [], by simpa using (append_inj' hx rfl).1⟩
  · exact (prefix_append p [b]).isInfix.trans h

end Split

def spaced : List Char → Bool
  | [] => true
  | [c] => c != '_'
  | c :: d :: cs => (c != '_' || d != '_') && spaced (d :: cs)

def isPlain (s : String) : Bool := spaced s.toList && s.toList.head? != some '_'

variable {s : String} {c : Char}

theorem isPlain_spaced (h : isPlain s) : spaced s.toList := (Bool.and_eq_true_iff.mp h).1

theorem spaced_iff : spaced u ↔ Apart ['_', '_'] u := by
  induction u with
  | nil => exact iff_of_true rfl (by unfold Apart; decide)
  | cons c u ih =>
    cases u with
    | nil => simp [spaced, Apart, infix_cons_iff, cons_prefix_cons, @eq_comm _ '_' c]
    | cons d u =>
      have hhead : ['_', '_'] <+: c :: d :: (u ++ ['_']) ↔ c = '_' ∧ d = '_' := by
        simp [cons_prefix_cons, @eq_comm _ '_' c, @eq_comm _ '_' d]
      have hcons : Apart ['_', '_'] (c :: d :: u) ↔ ¬ (c = '_' ∧ d = '_') ∧
          Apart ['_', '_'] (d :: u) := by
        rw [← hhead, Apart, Apart, ← not_or]
        exact not_congr infix_cons_iff
      rw [spaced, Bool.and_eq_true, ih, hcons]
      simp [imp_iff_not_or]

theorem spaced_not_infix (h : spaced u) : ¬ ['_', '_'] <:+: u :=
  fun hin => spaced_iff.mp h (hin.trans (prefix_append u ['_']).isInfix)

theorem isPlain_contains (h : isPlain s) : contains s "__" = false := by
  rw [← Bool.not_eq_true, contains_iff (by decide)]
  exact spaced_not_infix (isPlain_spaced h)

theorem digit_ne_underscore (h : c ∈ Nat.toDigits 10 n) : c ≠ '_' := by
  rintro rfl
  have hdigit := Nat.isDigit_of_mem_toDigits (by decide) (by decide) h
  cases hdigit

theorem spaced_digits (n : Nat) : spaced (Nat.toDigits 10 n) := by
  have hcount : (Nat.toDigits 10 n).count '_' = 0 :=
    count_eq_zero.mpr fun h => digit_ne_underscore h rfl
  refine spaced_iff.mpr fun h => ?_
  have hle := h.sublist.count_le '_'
  simp [hcount] at hle

theorem splitChars_double (hu : spaced u) (rest acc : List Char) :
    splitChars ['_', '_'] 0 (u ++ '_' :: '_' :: rest) acc = (acc.reverse ++ u) :: splitChars
      ['_', '_'] 0 rest [] :=
  splitChars_apart (by decide) (spaced_iff.mp hu) rest acc

theorem spaced_append_inj (hu : spaced u) (hv : spaced v)
    (h : u ++ '_' :: '_' :: x = v ++ '_' :: '_' :: y) : u = v ∧ x = y := by
  have hsplit := splitChars_double hu x []
  rw [h, splitChars_double hv y] at hsplit
  have huv : v = u := head_eq_of_cons_eq hsplit
  subst huv
  simpa using h

theorem splitChars_mark (rest : List Char) : ∀ cs acc : List Char, ∃ ps p, ps ≠ [] ∧
    splitChars ['_', '_'] 0 (cs ++ '_' :: '_' :: ("step".toList ++ '_' :: '_' :: rest)) acc =
      ps ++ p :: splitChars ['_', '_'] 0 rest []
  | [], acc => by
    refine ⟨[acc.reverse ++ []], "step".toList, by simp, ?_⟩
    rw [splitChars_double rfl, splitChars_double (by decide)]
    rfl
  | [c], acc => by
    by_cases hc : c = '_'
    · subst hc
      refine ⟨[acc.reverse ++ []], "_step".toList, by simp, ?_⟩
      change splitChars ['_', '_'] 0
        ([] ++ '_' :: '_' :: ("_step".toList ++ '_' :: '_' :: rest)) acc = _
      rw [splitChars_double rfl, splitChars_double (by decide)]
      rfl
    · obtain ⟨ps, p, hps, heq⟩ := splitChars_mark rest [] (c :: acc)
      refine ⟨ps, p, hps, ?_⟩
      rw [← heq]
      exact splitChars_cons (by simp [after?, Ne.symm hc]) acc
  | c :: d :: cs, acc => by
    by_cases hcd : '_' = c ∧ '_' = d
    · obtain ⟨rfl, rfl⟩ := hcd
      obtain ⟨ps, p, -, heq⟩ := splitChars_mark rest cs []
      refine ⟨(acc.reverse ++ []) :: ps, p, by simp, ?_⟩
      rw [cons_append, cons_append, cons_append, ← heq]
      exact splitChars_double (u := []) rfl _ acc
    · obtain ⟨ps, p, hps, heq⟩ := splitChars_mark rest (d :: cs) (c :: acc)
      refine ⟨ps, p, hps, ?_⟩
      rw [cons_append, cons_append, splitChars_cons (by grind [after?])]
      exact heq

theorem isDigit_bounds (h : c.isDigit) : 48 ≤ c.toNat ∧ c.toNat ≤ 57 := by
  simp only [Char.isDigit, Bool.and_eq_true, decide_eq_true_eq] at h
  exact ⟨UInt32.le_iff_toNat_le.mp h.1, UInt32.le_iff_toNat_le.mp h.2⟩

theorem natGo_digits (h : ∀ c ∈ ds, c.isDigit) (after : Bool) (n : Nat) (hne : after ∨ ds ≠ []) :
    natGo after n ds = some (Nat.ofDigitChars 10 ds n) := by
  induction ds generalizing after n with
  | nil => simpa [natGo] using hne
  | cons c ds ih =>
    have hc := h c mem_cons_self
    have hlt : c.toNat < 0x80 := by
      have := isDigit_bounds hc
      omega
    have hne : c ≠ '_' := by
      rintro rfl
      cases hc
    have hval : digitVal? c = some (c.toNat - 48) := by
      rw [digitVal?, if_pos hlt, if_pos hc]
    rw [natGo, if_neg hne, hval]
    dsimp only
    rw [ih (fun d hd => h d (mem_cons_of_mem _ hd)) true _ (.inl rfl), Nat.ofDigitChars_cons,
      Nat.mul_comm]
    rfl

theorem toList_toString (i : Int) :
    (toString i).toList = (if i < 0 then ['-'] else []) ++ Nat.toDigits 10 i.natAbs := by
  cases i with
  | ofNat n => exact Nat.toList_repr
  | negSucc n =>
    refine (String.toList_append (s := "-")).trans ?_
    rw [Nat.toList_repr, if_pos (Int.negSucc_lt_zero n)]
    rfl

theorem isDigit_of_mem_toString (h : c ∈ (toString (i : Int)).toList) : c = '-' ∨ c.isDigit := by
  rw [toList_toString, mem_append] at h
  refine h.imp (fun h => ?_) (Nat.isDigit_of_mem_toDigits (by decide) (by decide))
  split at h
  · exact mem_singleton.mp h
  · cases h

theorem int?_toString (i : Int) : int? (toString i) = some i := by
  have hdigit : ∀ c ∈ Nat.toDigits 10 i.natAbs, c.isDigit :=
    fun c hc => Nat.isDigit_of_mem_toDigits (by decide) (by decide) hc
  have hblank : ∀ c ∈ (toString i).toList, isBlank c = false := by
    intro c hc
    have hbounds : 45 ≤ c.toNat ∧ c.toNat ≤ 57 := by
      rcases isDigit_of_mem_toString hc with rfl | hc
      · decide
      · have := isDigit_bounds hc
        omega
    simp only [isBlank, Bool.or_eq_false_iff, Bool.and_eq_false_iff, decide_eq_false_iff_not]
    omega
  have hstart : ∀ ds : List Char, (∀ c ∈ ds, isBlank c = false) → ds.dropWhile isBlank = ds := by
    intro ds hds
    cases ds with
    | nil => rfl
    | cons c ds => rw [dropWhile_cons, hds c mem_cons_self, if_neg Bool.false_ne_true]
  have htrim : (trim (toString i)).toList = (toString i).toList := by
    rw [trim, trimEnd, trimStart, String.toList_ofList, String.toList_ofList, hstart _ hblank,
      dropEndWhile, hstart _ (by simpa using hblank), reverse_reverse]
  have hread : natGo false 0 (Nat.toDigits 10 i.natAbs) = some i.natAbs := by
    rw [natGo_digits hdigit false 0 (.inr Nat.toDigits_ne_nil),
      Nat.ofDigitChars_toDigits (by decide) (by decide)]
  rw [int?, htrim, toList_toString]
  by_cases hi : i < 0
  · rw [if_pos hi, singleton_append]
    simp only [hread]
    exact congrArg some (show -(i.natAbs : Int) = i by omega)
  · rw [if_neg hi, nil_append]
    split
    · rename_i cs hcs
      have := hdigit '-' (by rw [hcs]; exact mem_cons_self)
      cases this
    · rename_i cs hcs
      have := hdigit '+' (by rw [hcs]; exact mem_cons_self)
      cases this
    · rw [hread, Option.map_some, Int.ofNat_eq_natCast, Int.natAbs_of_nonneg (by omega)]

theorem int?_digits (n : Nat) : int? (String.ofList (Nat.toDigits 10 n)) = some (n : Int) := by
  rw [← int?_toString, ← Nat.toList_repr, String.ofList_toList]
  rfl

end Text

section Names

variable {stem key : String} {i : Nat}

open Text

variable {s : StepName} {stem' : String} {j : Nat}

theorem toList_sep : Namespaces.sep.toList = ['_', '_', '_'] := rfl

/-- What is left of the name of a step with an empty key when separators are taken out. -/
def keylessName (stem : String) (i : Nat) : String :=
  String.ofList
    (stem.toList ++ '_' :: '_' :: ("step".toList ++ '_' :: '_' :: Nat.toDigits 10 (i + 1)))

theorem toList_stepName_parts (stem : String) (i : Nat) (key : String) :
    (stepName stem i key).toList = (keylessName stem i).toList ++ '_' :: '_' :: key.toList := by
  simp [toList_stepName, keylessName]

theorem exists_underscore (h : ¬ ['_', '_'] <:+: u) (hu : ¬ spaced u) : ∃ v, u = v ++ ['_'] := by
  rw [spaced_iff, Apart, not_not] at hu
  obtain ⟨x, hx⟩ := (infix_concat_iff.mp hu).resolve_right h
  exact ⟨x, (append_left_inj ['_']).mp (by simpa using hx.symm)⟩

theorem StepName.parse_eq_ok_iff :
    StepName.parse t = .ok r ↔ ∃ word n, t = r.stem ++ "__" ++ word ++ "__" ++ n ++ "__" ++ r.key ∧
      spaced r.stem.toList ∧ spaced word.toList ∧ spaced n.toList ∧ contains r.key "__" = false ∧
      int? n = some (r.index + 1) := by
  have hsplit : ∀ stem word n key, splitOn "__" t = [stem, word, n, key] ↔
      t = stem ++ "__" ++ word ++ "__" ++ n ++ "__" ++ key ∧
      spaced stem.toList ∧ spaced word.toList ∧ spaced n.toList ∧ contains key "__" = false := by
    intro stem word n key
    rw [splitOn_eq_iff (by decide), spaced_iff, spaced_iff, spaced_iff, ← Bool.not_eq_true,
      contains_iff (by decide)]
    simp [join, String.intercalate_cons_cons, String.append_assoc, Parted]
  constructor
  · intro h
    unfold StepName.parse at h
    split at h
    · rename_i stem word n key hparts
      split at h
      · rename_i k hk
        cases h
        obtain ⟨heq, hs, hw, hn, hkey⟩ := (hsplit _ _ _ _).mp hparts
        exact ⟨word, n, heq, hs, hw, hn, hkey, by simpa using hk⟩
      · cases h
    · cases h
  · rintro ⟨word, n, heq, hs, hw, hn, hkey, hint⟩
    unfold StepName.parse
    rw [(hsplit r.stem word n r.key).mpr ⟨heq, hs, hw, hn, hkey⟩]
    simp [hint]

/-- The name of a step is read as its place and key, and as its stem without an underscore at the
end. -/
theorem StepName.parse_stepName (hstem : contains stem "__" = false)
    (hkey : contains key "__" = false) :
    StepName.parse (stepName stem i key) = .ok ⟨if spaced stem.toList then stem else dropEnd stem 1,
      i, key⟩ := by
  have hdigits := spaced_digits (i + 1)
  rw [← String.toList_ofList (l := Nat.toDigits 10 (i + 1))] at hdigits
  have hint : int? (String.ofList (Nat.toDigits 10 (i + 1))) = some ((i : Int) + 1) :=
    int?_digits (i + 1)
  rw [StepName.parse_eq_ok_iff]
  split
  · rename_i hs
    refine ⟨"step", _, ?_, hs, by decide, hdigits, hkey, hint⟩
    rw [← String.toList_inj, toList_stepName_parts]
    simp [keylessName]
  · rename_i hs
    rw [← Bool.not_eq_true, contains_iff (by decide)] at hstem
    obtain ⟨v, hv⟩ := exists_underscore hstem hs
    have hdrop : (dropEnd stem 1).toList = v := by simp [dropEnd, hv]
    refine ⟨"_step", _, ?_, ?_, by decide, hdigits, hkey, hint⟩
    · rw [← String.toList_inj, toList_stepName_parts]
      simp [keylessName, hdrop, hv]
    · rw [hdrop, spaced_iff]
      rw [hv] at hstem
      exact hstem

theorem StepName.read_stepName (hstem : isPlain stem) (hkey : isPlain key)
    (h : StepName.read (stepName stem i key) = .ok s) : s.stem = stem := by
  rw [StepName.read, StepName.parse_stepName (isPlain_contains hstem) (isPlain_contains hkey),
    if_pos (isPlain_spaced hstem)] at h
  cases h
  rfl

theorem StepName.read_place (h : StepName.read (stepName stem i key) = .ok s) :
    s.index = i ∧ s.key = key := by
  obtain ⟨ps, p, hps, hsplit⟩ :=
    splitChars_mark (Nat.toDigits 10 (i + 1) ++ '_' :: '_' :: key.toList) stem.toList []
  rw [splitChars_double (spaced_digits _)] at hsplit
  have hname : (stepName stem i key).toList = stem.toList ++
      '_' :: '_' :: ("step".toList ++ '_' :: '_' ::
      (Nat.toDigits 10 (i + 1) ++ '_' :: '_' :: key.toList)) := toList_stepName stem i key
  unfold StepName.read StepName.parse at h
  split at h
  · rename_i stem' mark n key' hparts
    rw [splitOn, hname] at hparts
    change map String.ofList (splitChars ['_', '_'] 0 _ []) = _ at hparts
    rw [hsplit] at hparts
    have hlen := congrArg length hparts
    simp only [length_map, length_append, length_cons, length_nil] at hlen
    have hpos := length_pos_iff.mpr hps
    have hkey := splitChars_whole (mt (splitChars_length (by decide)).mpr
      (by omega : ¬ 1 < (splitChars ['_', '_'] 0 key.toList []).length)) []
    obtain ⟨q, rfl⟩ : ∃ q, ps = [q] := length_eq_one_iff.mp (by rw [hkey] at hlen; simpa using hlen)
    rw [hkey] at hparts
    simp only [cons_append, nil_append, map_cons, map_nil, cons.injEq, and_true, reverse_nil,
      String.ofList_toList] at hparts
    obtain ⟨-, -, rfl, rfl⟩ := hparts
    rw [int?_digits] at h
    cases h
    exact ⟨by simp, rfl⟩
  · cases h

theorem stepName_append_stem {key' u v : String} (hstem : isPlain stem) (hstem' : isPlain stem')
    (h : stepName stem i key ++ u = stepName stem' j key' ++ v) : stem = stem' := by
  have h := congrArg String.toList h
  simp only [String.toList_append, toList_stepName_parts, keylessName, String.toList_ofList,
    append_assoc, cons_append] at h
  rw [← String.toList_inj]
  exact (spaced_append_inj (isPlain_spaced hstem) (isPlain_spaced hstem') h).1

theorem infix_keylessName (stem : String) (i : Nat) (v : List Char) :
    ['_', '_', '_'] <:+: (keylessName stem i).toList ++ v ↔ ['_', '_', '_'] <:+: stem.toList ++
      ['_', '_'] ∨ ['_', '_', '_'] <:+: v := by
  have hchars : (keylessName stem i).toList ++ v =
      (stem.toList ++ ['_', '_']) ++
      ("step".toList ++ (['_', '_'] ++ (Nat.toDigits 10 (i + 1) ++ v))) := by simp [keylessName]
  rw [hchars]
  constructor
  · intro h
    refine (infix_of_apart (by simp) (by simp) h).imp_right fun h => ?_
    have hdigit : ∀ c ∈ Nat.toDigits 10 (i + 1), c ∉ ['_', '_', '_'] := by
      intro c hc
      simpa using digit_ne_underscore hc
    refine (infix_of_apart Nat.toDigits_ne_nil hdigit h).resolve_left fun h => ?_
    have hle := h.length_le
    simp at hle
  · rintro (h | h)
    · exact h.trans (prefix_append _ _).isInfix
    · refine h.trans (List.IsSuffix.isInfix ?_)
      rw [← append_assoc, ← append_assoc, ← append_assoc]
      exact suffix_append _ _

theorem apart_keylessName (hstem : spaced stem.toList) :
    Apart Namespaces.sep.toList (keylessName stem i).toList := by
  intro h
  rcases (infix_keylessName stem i _).mp h with h | h
  · exact spaced_iff.mp hstem
      (infix_of_concat (p := ['_', '_']) (u := stem.toList ++ ['_']) (by simpa using h))
  · have hle := h.length_le
    simp [toList_sep] at hle

theorem apart_stepName (hstem : spaced stem.toList) (hkey : isPlain key) (hne : key ≠ "") :
    Apart Namespaces.sep.toList (stepName stem i key).toList := by
  obtain ⟨c, cs, hcs⟩ := exists_cons_of_ne_nil (mt String.toList_eq_nil_iff.mp hne)
  have hc : '_' ≠ c := by
    rintro rfl
    simp [isPlain, hcs] at hkey
  have hspaced := isPlain_spaced hkey
  rw [Apart, toList_stepName_parts, append_assoc, hcs, toList_sep, infix_keylessName]
  rw [hcs, spaced_iff] at hspaced
  rintro (h | h)
  · exact apart_keylessName (i := i) hstem ((infix_keylessName stem i _).mpr (.inl h))
  · have h : ['_', '_', '_'] <:+: ['_', '_'] ++ ([c] ++ (cs ++ ['_', '_'])) := h
    rcases infix_of_apart (by simp) (by simpa using hc.symm) h with h | h
    · have hle := h.length_le
      simp at hle
    · have hin : ['_', '_'] <:+: cs ++ ['_'] := infix_of_concat (by simpa using h)
      exact hspaced (hin.trans (suffix_cons c _).isInfix)

end Names

namespace Namespaces

open Text

variable {n : String}

theorem join_cons (h : ns ≠ []) : join (n :: ns) = n ++ sep ++ join ns := Text.join_cons h

theorem join_singleton (a : String) : join [a] = a := String.intercalate_singleton (s := sep)

theorem split_join_append (hns : ∀ n ∈ ns, Apart sep.toList n.toList) (a : String) :
    split (join (ns ++ [a])) = ns ++ split a :=
  splitOn_join_append (by decide) hns a

theorem split_whole (ha : contains a sep = false) : split a = [a] := by
  rw [← Bool.not_eq_true, contains_iff (by decide)] at ha
  rw [split, splitOn, splitChars_whole ha]
  simp

section Plain

variable (hns : ∀ n ∈ ns, ∃ stem i key, n = stepName stem (i : Nat) key ∧ isPlain stem ∧
  isPlain key ∧ key ≠ "")

include hns

theorem apart_of_plain : ∀ n ∈ ns, Apart sep.toList n.toList := by
  intro n hn
  obtain ⟨stem, i, key, rfl, hstem, hkey, hne⟩ := hns n hn
  exact apart_stepName (isPlain_spaced hstem) hkey hne

theorem splitLast_join (ha : contains a sep = false) : splitLast (join (ns ++ [a])) = (ns, a) := by
  rw [splitLast, split_join_append (apart_of_plain hns), split_whole ha]
  simp

end Plain

theorem splitLast_of_contains (h : contains a sep = false) : (splitLast a).1 = [] := by
  rw [splitLast, split_whole h]
  rfl

theorem partition_heads (p q : Namespaces) :
    (partition p q).1 ++ (partition p q).2 = p ∧ (partition p q).1 <+: q ∧ ∀ r, r <+: p → r <+: q →
      r <+: (partition p q).1 := by
  fun_induction partition p q with
  | case1 p n q heads tails heq ih =>
    rw [heq] at ih
    obtain ⟨hp, hq, hmost⟩ := ih
    refine ⟨congrArg (n :: ·) hp, (prefix_cons_inj n).mpr hq, ?_⟩
    rintro (_ | ⟨m, r⟩) hrp hrq
    · exact nil_prefix
    · obtain ⟨rfl, hr⟩ := cons_prefix_cons.mp hrp
      exact (prefix_cons_inj _).mpr (hmost r hr (cons_prefix_cons.mp hrq).2)
  | case2 p n m q hne =>
    refine ⟨rfl, nil_prefix, ?_⟩
    rintro (_ | ⟨k, r⟩) hrp hrq
    · exact nil_prefix
    · exact absurd ((cons_prefix_cons.mp hrp).1.symm.trans (cons_prefix_cons.mp hrq).1) hne
  | case3 p q hnot =>
    refine ⟨rfl, nil_prefix, fun r hrp hrq => ?_⟩
    cases p with
    | nil => exact hrp
    | cons n p =>
      cases q with
      | nil => exact hrq
      | cons m q => exact absurd rfl (hnot n p m q rfl)

theorem partition_eq_nil_iff : (partition p q).2 = [] ↔ p <+: q := by
  obtain ⟨hp, hq, hmost⟩ := partition_heads p q
  constructor
  · intro h
    rw [h, append_nil] at hp
    exact hp ▸ hq
  · intro h
    have hle := (hmost p (prefix_refl p) h).length_le
    have hlen := congrArg length hp
    rw [length_append] at hlen
    exact length_eq_zero_iff.mp (by omega)

theorem partition_append (p q : Namespaces) : (partition p (p ++ q)).2 = [] :=
  partition_eq_nil_iff.mpr (prefix_append p q)

theorem partition_append_left (p q r : Namespaces) :
    (partition (p ++ q) (p ++ r)).2 = (partition q r).2 := by
  induction p with
  | nil => rfl
  | cons n p ih => simpa [partition] using ih

end Namespaces

open Text

variable {stem key t : String} {i : Nat}

theorem apart_stepName_iff (hstem : ¬ ['_', '_'] <:+: stem.toList)
    (hkey : ¬ ['_', '_'] <:+: key.toList) :
    Apart Namespaces.sep.toList (stepName stem i key).toList ↔ spaced stem.toList ∧ isPlain key ∧
      key ≠ "" := by
  refine ⟨fun h => ?_, fun h => apart_stepName h.1 h.2.1 h.2.2⟩
  rw [Apart, toList_stepName_parts, List.append_assoc, toList_sep, infix_keylessName, not_or] at h
  obtain ⟨hs, hk⟩ := h
  refine ⟨?_, ?_, ?_⟩
  · by_contra hspaced
    obtain ⟨v, hv⟩ := exists_underscore hstem hspaced
    exact hs ⟨v, [], by simp [hv]⟩
  · rw [isPlain, Bool.and_eq_true, bne_iff_ne]
    constructor
    · by_contra hspaced
      obtain ⟨v, hv⟩ := exists_underscore hkey hspaced
      exact hk ⟨'_' :: '_' :: v, [], by simp [hv]⟩
    · intro hhead
      obtain ⟨cs, hcs⟩ := List.head?_eq_some_iff.mp hhead
      exact hk ⟨[], cs ++ ['_', '_'], by simp [hcs]⟩
  · rintro rfl
    exact hk ⟨[], ['_'], rfl⟩

namespace StepName

/-- The names of steps without double underscores in their stems and keys: what one is read as, when
joined ones come apart again, and what else is read as a name. -/
theorem names_read_back {ns : List StepName} {a : String}
    (hns : ∀ n ∈ ns, 0 ≤ n.index ∧ contains n.stem "__" = false ∧ contains n.key "__" = false)
    (ha : contains a Namespaces.sep = false) (t : String) (r : StepName) :
    (∀ n ∈ ns, parse n.text =
        .ok ⟨if spaced n.stem.toList then n.stem else dropEnd n.stem 1, n.index, n.key⟩) ∧
      (Namespaces.split (Namespaces.join (ns.map text ++ [a])) = ns.map text ++ [a] ↔
        ∀ n ∈ ns, spaced n.stem.toList = true ∧ isPlain n.key = true ∧ n.key ≠ "") ∧
      (parse t = .ok r ↔ ∃ word n, t = r.stem ++ "__" ++ word ++ "__" ++ n ++ "__" ++ r.key ∧
        spaced r.stem.toList = true ∧ spaced word.toList = true ∧ spaced n.toList = true ∧
        contains r.key "__" = false ∧ int? n = some (r.index + 1)) := by
  have hnat : ∀ n ∈ ns, ((n.index.toNat : Nat) : Int) = n.index :=
    fun n hn => Int.toNat_of_nonneg (hns n hn).1
  have htext : ∀ n ∈ ns, n.text = stepName n.stem n.index.toNat n.key :=
    fun n hn => by rw [stepName, hnat n hn]
  refine ⟨fun n hn => ?_, ?_, parse_eq_ok_iff⟩
  · obtain ⟨-, hs, hk⟩ := hns n hn
    rw [htext n hn, parse_stepName hs hk, hnat n hn]
  · rw [← Bool.not_eq_true, contains_iff (by decide)] at ha
    have hapart : ∀ n ∈ ns, (Apart Namespaces.sep.toList n.text.toList ↔
        spaced n.stem.toList = true ∧ isPlain n.key = true ∧ n.key ≠ "") := by
      intro n hn
      obtain ⟨-, hs, hk⟩ := hns n hn
      rw [← Bool.not_eq_true, contains_iff (by decide)] at hs hk
      rw [htext n hn]
      exact apart_stepName_iff hs hk
    rw [Namespaces.split, Namespaces.join, splitOn_eq_iff (by decide), and_iff_right rfl,
      List.map_append, List.map_singleton, parted_concat, and_iff_left ha, List.map_map,
      List.forall_mem_map]
    exact forall₂_congr hapart

theorem names_read_back_workflow : parse "workflow___step__1__cat" = .ok ⟨"workflow", 0, "cat"⟩ ∧
    Namespaces.split (Namespaces.join ["_a__step__1__sub.wic", "sub__step__12__cat", "_o_"]) =
      ["_a__step__1__sub.wic", "sub__step__12__cat", "_o_"] ∧
    parse "a__b__ 7__c" = .ok ⟨"a", 6, "c"⟩ := by
  obtain ⟨hread, -, hother⟩ := @names_read_back [⟨"workflow_", 0, "cat"⟩] "o" (by decide)
    (by decide) "a__b__ 7__c" ⟨"a", 6, "c"⟩
  obtain ⟨-, hjoined, -⟩ := @names_read_back [⟨"_a", 0, "sub.wic"⟩, ⟨"sub", 11, "cat"⟩] "_o_"
    (by decide) (by decide) "" ⟨"", 0, ""⟩
  refine ⟨hread _ List.mem_cons_self, hjoined.mpr (by decide), hother.mpr ⟨"b", " 7", ?_⟩⟩
  decide

end StepName

end WorkflowInference
