import WorkflowInference.Log
import Mathlib.Data.List.Forall2

/-!
What computations that print and fail come to. `Yields` follows one run that succeeds and forgets
what was printed; `Surely` says that every run succeeds with the same value. The rules for
sequencing take a computation apart or put it together one step at a time.
-/
namespace WorkflowInference

open List

variable {α β : Type} {e : Failure}

theorem Result.bind_eq_ok {f : α → Result β} :
    (x >>= f) = .ok b ↔ ∃ a, x = .ok a ∧ f a = .ok b := by
  cases x with
  | error e => simp [bind, Except.bind]
  | ok a => simp [bind, Except.bind]

theorem Result.of_bind {f : α → Result β} (h : (x >>= f) = .ok b) : ∃ a, x = .ok a ∧ f a = .ok b :=
  bind_eq_ok.mp h

section Several

variable {γ δ : Type} {x : Result α} {f : α → Result β} {g : α → β → Result γ}
  {k : α → β → γ → Result δ}

theorem Result.of_bind₂ (h : (do let a ← x; let b ← f a; g a b) = .ok c) :
    ∃ a, x = .ok a ∧ ∃ b, f a = .ok b ∧ g a b = .ok c :=
  (of_bind h).imp fun _ h => ⟨h.1, of_bind h.2⟩

theorem Result.of_bind₃ (h : (do let a ← x; let b ← f a; let c ← g a b; k a b c) = .ok d) :
    ∃ a, x = .ok a ∧ ∃ b, f a = .ok b ∧ ∃ c, g a b = .ok c ∧ k a b c = .ok d :=
  (of_bind h).imp fun _ h => ⟨h.1, of_bind₂ h.2⟩

end Several

theorem Result.of_map {x : Result α} {f : α → β} {b : β} (h : (do return f (← x)) = .ok b) :
    ∃ a, x = .ok a ∧ f a = b :=
  (of_bind h).imp fun _ h => ⟨h.1, Except.ok.inj h.2⟩

@[simp] theorem Result.pure_eq_ok {a b : α} : (pure a : Result α) = .ok b ↔ a = b := by
  simp [pure, Except.pure]

@[simp] theorem Result.throw_eq_ok {b : α} : (throw e : Result α) = .ok b ↔ False := by
  simp [throw, throwThe, MonadExceptOf.throw]

@[simp] theorem Result.elim_eq_ok {o : Option α} {a : α} :
    o.elim (Except.error e) Except.ok = .ok a ↔ o = some a := by
  cases o <;> simp

theorem Result.toOption_eq_some {r : Result α} {a : α} : r.toOption = some a ↔ r = .ok a := by
  cases r <;> simp [Except.toOption]

theorem getD_of_getElem? {as : List α} {i : Nat} {a : α} (h : as[i]? = some a) {b : α} :
    as.getD i b = a := by
  rw [getD_eq_getElem?_getD, h, Option.getD_some]

theorem getElem?_getD {as : List α} {i : Nat} (h : i < as.length) (b : α) :
    as[i]? = some (as.getD i b) := by
  rw [getElem?_eq_getElem h, getD_of_getElem? (getElem?_eq_getElem h)]

inductive Chain {α σ : Type} (R : α → σ → σ → Prop) : List α → σ → σ → Prop
  | nil (s : σ) : Chain R [] s s
  | cons {a : α} {as : List α} {s t u : σ} (head : R a s t) (tail : Chain R as t u) :
      Chain R (a :: as) s u

namespace Chain

variable {α σ : Type} {R Q : α → σ → σ → Prop} {P : σ → Prop} {as : List α} {s t : σ}

variable (hc : Chain R as s t)

include hc

theorem imp (h : ∀ a s t, R a s t → Q a s t) : Chain Q as s t := by
  induction hc with
  | nil s => exact .nil s
  | cons head _ ih => exact .cons (h _ _ _ head) ih

theorem keeps (h : ∀ a ∈ as, ∀ s t, P s → R a s t → P t) (hs : P s) : P t := by
  induction hc with
  | nil s => exact hs
  | cons head _ ih =>
    exact ih (fun a ha => h a (mem_cons_of_mem _ ha)) (h _ mem_cons_self _ _ hs head)

theorem with_inv (h : ∀ a ∈ as, ∀ s t, P s → R a s t → P t) (hs : P s) :
    Chain (fun a s t => a ∈ as ∧ P s ∧ R a s t) as s t := by
  induction hc with
  | nil s => exact .nil s
  | @cons a as s t u head _ ih =>
    have ht := h a mem_cons_self _ _ hs head
    refine .cons ⟨mem_cons_self, hs, head⟩ ?_
    exact (ih (fun b hb => h b (mem_cons_of_mem _ hb)) ht).imp fun _ _ _ hr =>
      ⟨mem_cons_of_mem _ hr.1, hr.2⟩

/-- When each step settles its own item and unsettles none, all items are settled at the end. -/
theorem covers {W : σ → α → Prop} (h : ∀ a s t, R a s t → W t a ∧ ∀ b, W s b → W t b) :
    ∀ b, W s b ∨ b ∈ as → W t b := by
  induction hc with
  | nil s =>
    rintro b (hb | hb)
    · exact hb
    · cases hb
  | cons head _ ih =>
    rintro b (hb | hb)
    · exact ih b (.inl ((h _ _ _ head).2 b hb))
    · rcases mem_cons.mp hb with rfl | hb
      · exact ih b (.inl (h _ _ _ head).1)
      · exact ih b (.inr hb)

theorem last_split (ha : a ∈ as) :
    ∃ pre post u v, as = pre ++ a :: post ∧ a ∉ post ∧ Chain R pre s u ∧ R a u v ∧
      Chain R post v t := by
  induction hc with
  | nil s => cases ha
  | @cons b as s t u head tail ih =>
    by_cases hmem : a ∈ as
    · obtain ⟨pre, post, v, w, rfl, hpost, hpre, hmid, hrest⟩ := ih hmem
      exact ⟨b :: pre, post, v, w, rfl, hpost, .cons head hpre, hmid, hrest⟩
    · rcases mem_cons.mp ha with rfl | ha
      · exact ⟨[], as, s, t, rfl, hmem, .nil s, head, tail⟩
      · exact absurd ha hmem

theorem first_split (ha : a ∈ as) :
    ∃ pre post u v, as = pre ++ a :: post ∧ a ∉ pre ∧ Chain R pre s u ∧ R a u v ∧
      Chain R post v t := by
  induction hc with
  | nil s => cases ha
  | @cons b as s t u head tail ih =>
    by_cases hab : b = a
    · subst hab
      exact ⟨[], as, s, t, rfl, by simp, .nil s, head, tail⟩
    · obtain ⟨pre, post, v, w, rfl, hpre, hbefore, hmid, hrest⟩ :=
        ih ((mem_cons.mp ha).resolve_left (Ne.symm hab))
      exact ⟨b :: pre, post, v, w,
        rfl, by simp [hpre, Ne.symm hab], .cons head hbefore, hmid, hrest⟩

end Chain

variable {α β : Type} {f : α → Result β} {as : List α} {bs : List β}

theorem Result.foldlM_eq_ok {σ : Type} {f : σ → α → Result σ} {s t : σ}
    (h : as.foldlM f s = .ok t) : Chain (fun a s t => f s a = .ok t) as s t := by
  induction as generalizing s with
  | nil =>
    rw [← Result.pure_eq_ok.mp h]
    exact .nil s
  | cons a as ih =>
    rw [foldlM_cons] at h
    obtain ⟨u, hu, h⟩ := Result.of_bind h
    exact .cons hu (ih h)

theorem Result.mapM_eq_ok (h : as.mapM f = .ok bs) :
    List.Forall₂ (fun a b => f a = .ok b) as bs := by
  induction as generalizing bs with
  | nil =>
    rw [mapM_nil, Result.pure_eq_ok] at h
    subst h
    exact .nil
  | cons a as ih =>
    rw [mapM_cons] at h
    obtain ⟨b, hb, h⟩ := Result.of_bind h
    obtain ⟨cs, hcs, rfl⟩ := Result.of_map h
    exact .cons hb (ih hcs)

theorem Result.mapM_of_forall₂ (h : List.Forall₂ (fun a b => f a = .ok b) as bs) :
    as.mapM f = .ok bs := by
  induction h with
  | nil => rfl
  | cons ha _ ih =>
    rw [mapM_cons, ha, ih]
    rfl

theorem Result.exists_mapM {P : β → Prop} (h : ∀ a ∈ as, ∃ b, f a = .ok b ∧ P b) :
    ∃ bs, as.mapM f = .ok bs ∧ ∀ b ∈ bs, P b := by
  induction as with
  | nil => exact ⟨[], rfl, forall_mem_nil _⟩
  | cons a as ih =>
    obtain ⟨⟨b, hb, hP⟩, hrest⟩ := forall_mem_cons.mp h
    obtain ⟨bs, hbs, hPs⟩ := ih hrest
    exact ⟨b :: bs, by rw [mapM_cons, hb, hbs]; rfl, forall_mem_cons.mpr ⟨hP, hPs⟩⟩

theorem Result.mapM_cases (h : ∀ a, f a = .error e ∨ ∃ b, f a = .ok b) (as : List α) :
    as.mapM f = .error e ∨ ∃ bs, as.mapM f = .ok bs := by
  induction as with
  | nil => exact .inr ⟨[], rfl⟩
  | cons a as ih =>
    rw [mapM_cons]
    rcases h a with ha | ⟨b, hb⟩
    · exact .inl (by rw [ha]; rfl)
    · rcases ih with hend | ⟨bs, hbs⟩
      · exact .inl (by rw [hb, hend]; rfl)
      · exact .inr ⟨b :: bs, by rw [hb, hbs]; rfl⟩

theorem forall₂_trans {γ : Type} {R : α → β → Prop} {S : β → γ → Prop} {T : α → γ → Prop}
    {cs : List γ} (h : ∀ a b c, R a b → S b c → T a c) (hab : List.Forall₂ R as bs)
    (hbc : List.Forall₂ S bs cs) : List.Forall₂ T as cs := by
  induction hab generalizing cs with
  | nil =>
    cases hbc
    exact .nil
  | cons hr _ ih =>
    obtain _ | ⟨hs, hbc⟩ := hbc
    exact .cons (h _ _ _ hr hs) (ih hbc)

theorem Result.mapM_congr {f g : α → Result β} (h : ∀ a ∈ as, f a = g a) :
    as.mapM f = as.mapM g := by
  induction as with
  | nil => rfl
  | cons a as ih =>
    rw [mapM_cons, mapM_cons, h a mem_cons_self, ih fun b hb => h b (mem_cons_of_mem _ hb)]

theorem forall₂_getElem? {R : α → β → Prop} (h : List.Forall₂ R as bs) (i : Nat) :
    as[i]? = none ∧ bs[i]? = none ∨ ∃ a b, as[i]? = some a ∧ bs[i]? = some b ∧ R a b := by
  induction h generalizing i with
  | nil => exact .inl ⟨rfl, rfl⟩
  | cons hab _ ih =>
    cases i with
    | zero => exact .inr ⟨_, _, rfl, rfl, hab⟩
    | succ i => exact ih i

theorem forall₂_at {R : α → β → Prop} {i : Nat} {a : α} (h : List.Forall₂ R as bs)
    (ha : as[i]? = some a) : ∃ b, bs[i]? = some b ∧ R a b := by
  rcases forall₂_getElem? h i with ⟨hnone, -⟩ | ⟨_, b, ha', hb, hab⟩
  · cases hnone.symm.trans ha
  · cases ha'.symm.trans ha
    exact ⟨b, hb, hab⟩

theorem Result.getElem?_mapM {i : Nat} {b : β} (h : as.mapM f = .ok bs) (hb : bs[i]? = some b) :
    ∃ a, as[i]? = some a ∧ f a = .ok b := forall₂_at (Result.mapM_eq_ok h).flip hb

theorem Result.mem_of_mapM {b : β} (h : as.mapM f = .ok bs) (hb : b ∈ bs) :
    ∃ a ∈ as, f a = .ok b := by
  obtain ⟨i, hi⟩ := getElem?_of_mem hb
  obtain ⟨a, ha, hab⟩ := Result.getElem?_mapM h hi
  exact ⟨a, mem_of_getElem? ha, hab⟩

theorem Result.mem_mapM {a : α} (h : as.mapM f = .ok bs) (ha : a ∈ as) : ∃ b ∈ bs, f a = .ok b := by
  obtain ⟨i, hi⟩ := getElem?_of_mem ha
  obtain ⟨b, hb, hab⟩ := forall₂_at (Result.mapM_eq_ok h) hi
  exact ⟨b, mem_of_getElem? hb, hab⟩

theorem Result.length_mapM (h : as.mapM f = .ok bs) : bs.length = as.length :=
  (Result.mapM_eq_ok h).length_eq.symm

theorem Result.filterM_eq_ok {p : α → Result Bool} {q : α → Bool} {as bs : List α}
    (hq : ∀ a b, p a = .ok b → b = q a) (h : as.filterM p = .ok bs) : bs = as.filter q := by
  have haux : ∀ (as acc bs : List α), as.filterAuxM p acc = .ok bs →
      bs = (as.filter q).reverse ++ acc := by
    intro as
    induction as with
    | nil => exact fun acc bs h => (Result.pure_eq_ok.mp h).symm
    | cons a as ih =>
      intro acc bs h
      obtain ⟨t, ht, h⟩ := Result.of_bind h
      rw [ih _ _ h, filter_cons, ← hq a t ht]
      cases t <;> simp
  obtain ⟨cs, hcs, rfl⟩ := Result.of_map h
  rw [haux _ _ _ hcs, append_nil, reverse_reverse]

theorem Result.mem_of_filterM {p : α → Result Bool} {as bs : List α} {b : α}
    (h : as.filterM p = .ok bs) (hb : b ∈ bs) : b ∈ as := by
  rw [Result.filterM_eq_ok (q := fun a => (p a).toOption.getD false)
    (fun a b h => by rw [h]; rfl) h] at hb
  exact mem_of_mem_filter hb

theorem Result.filterMapM_eq_ok {f : α → Result (Option β)} (h : as.filterMapM f = .ok bs) :
    ∃ os, as.mapM f = .ok os ∧ bs = os.filterMap id := by
  induction as generalizing bs with
  | nil => exact ⟨[], rfl, (Result.pure_eq_ok.mp h).symm⟩
  | cons a as ih =>
    rw [filterMapM_cons] at h
    obtain ⟨o, ho, h⟩ := Result.of_bind h
    cases o with
    | none =>
      obtain ⟨os, hos, rfl⟩ := ih h
      exact ⟨none :: os, Result.mapM_of_forall₂ (.cons ho (Result.mapM_eq_ok hos)), rfl⟩
    | some b =>
      obtain ⟨cs, hcs, h⟩ := Result.of_bind h
      obtain ⟨os, hos, rfl⟩ := ih hcs
      rw [← Result.pure_eq_ok.mp h]
      exact ⟨some b :: os, Result.mapM_of_forall₂ (.cons ho (Result.mapM_eq_ok hos)), rfl⟩

theorem Result.mem_filterMapM {f : α → Result (Option β)} (h : as.filterMapM f = .ok bs)
    (b : β) : b ∈ bs ↔ ∃ a ∈ as, f a = .ok (some b) := by
  obtain ⟨os, hos, rfl⟩ := Result.filterMapM_eq_ok h
  simp only [mem_filterMap, id_eq, exists_eq_right]
  constructor
  · exact Result.mem_of_mapM hos
  · rintro ⟨a, ha, hb⟩
    obtain ⟨o, ho, hread⟩ := Result.mem_mapM hos ha
    cases hb.symm.trans hread
    exact ho

namespace Logged

variable {α β : Type}

/-- Some run of the computation succeeds with this value. -/
def Yields (x : Logged α) (a : α) : Prop := ∃ t u, x.outcome t = (.ok a, u)

/-- Every run of the computation succeeds with this value. -/
def Surely (x : Logged α) (a : α) : Prop := ∀ t, ∃ u, x.outcome t = (.ok a, u)

def Endless (x : Logged α) : Prop := ∀ t, ∃ u, x.outcome t = (.error .endless, u)

/-- The computation does not fail: unless it goes on for ever, it has a value of which `P` holds. -/
def Comes (x : Logged α) (P : α → Prop) : Prop := x.Endless ∨ ∃ a, x.Surely a ∧ P a

variable {r : Result α} {f : α → Logged β} {x : Logged α} {b : β} {a : α}

theorem outcome_bind (x : Logged α) (f : α → Logged β) (t : Transcript) :
    (x >>= f).outcome t = (ExceptT.bindCont f (x.outcome t).1).run (x.outcome t).2 := rfl

theorem outcome_of_bind (h : (x >>= f).outcome t = (.ok b, u)) :
    ∃ a v, x.outcome t = (.ok a, v) ∧ (f a).outcome v = (.ok b, u) := by
  rw [outcome_bind] at h
  rcases hx : x.outcome t with ⟨_ | a, v⟩
  · rw [hx] at h
    cases congrArg Prod.fst h
  · rw [hx] at h
    exact ⟨a, v, rfl, h⟩

theorem Yields.of_bind (h : (x >>= f).Yields b) : ∃ a, x.Yields a ∧ (f a).Yields b := by
  obtain ⟨t, u, h⟩ := h
  obtain ⟨a, v, hx, h⟩ := outcome_of_bind h
  exact ⟨a, ⟨t, v, hx⟩, v, u, h⟩

section Several

variable {γ δ : Type} {g : α → β → Logged γ} {k : α → β → γ → Logged δ}

theorem Yields.of_bind₂ (h : (do let a ← x; let b ← f a; g a b).Yields c) :
    ∃ a, x.Yields a ∧ ∃ b, (f a).Yields b ∧ (g a b).Yields c :=
  h.of_bind.imp fun _ h => ⟨h.1, h.2.of_bind⟩

theorem Yields.of_bind₃ (h : (do let a ← x; let b ← f a; let c ← g a b; k a b c).Yields d) :
    ∃ a, x.Yields a ∧ ∃ b, (f a).Yields b ∧ ∃ c, (g a b).Yields c ∧ (k a b c).Yields d :=
  h.of_bind.imp fun _ h => ⟨h.1, h.2.of_bind₂⟩

end Several

@[simp] theorem yields_pure {b : α} : (pure a : Logged α).Yields b ↔ a = b := by
  constructor
  · rintro ⟨t, u, h⟩
    cases h
    rfl
  · rintro rfl
    exact ⟨{}, {}, rfl⟩

@[simp] theorem yields_throw : ¬ (throw e : Logged α).Yields a := by
  rintro ⟨t, u, h⟩
  cases congrArg Prod.fst h

theorem yields_of_toOption (h : (x.outcome t).1.toOption = some a) : x.Yields a :=
  ⟨t, (x.outcome t).2, Prod.ext (Result.toOption_eq_some.mp h) rfl⟩

theorem yields_of_any {p : α → Bool} (h : (x.outcome t).1.toOption.any p) : ∃ a, x.Yields a ∧ p a :=
  ((Option.any_eq_true _ _).mp h).imp fun _ h => ⟨yields_of_toOption h.1, h.2⟩

theorem yields_of_isSome (h : (x.outcome t).1.toOption.isSome) : ∃ a, x.Yields a :=
  (Option.isSome_iff_exists.mp h).imp fun _ => yields_of_toOption

@[simp] theorem yields_lift : (liftM r : Logged α).Yields a ↔ r = .ok a := by
  cases r with
  | error e =>
    change (throw e : Logged α).Yields a ↔ _
    simp
  | ok b =>
    change (pure b : Logged α).Yields a ↔ _
    simp

theorem Yields.of_lift (h : ((liftM r : Logged α) >>= f).Yields b) :
    ∃ a, r = .ok a ∧ (f a).Yields b :=
  h.of_bind.imp fun _ h => ⟨yields_lift.mp h.1, h.2⟩

theorem Yields.of_map {f : α → β} (h : (do return f (← x)).Yields b) : ∃ a, x.Yields a ∧ f a = b :=
  h.of_bind.imp fun _ h => ⟨h.1, yields_pure.mp h.2⟩

theorem yields_foldlM {σ : Type} {f : σ → α → Logged σ} {as : List α} {s t : σ}
    (h : (as.foldlM f s).Yields t) : Chain (fun a s t => (f s a).Yields t) as s t := by
  induction as generalizing s with
  | nil =>
    rw [← yields_pure.mp h]
    exact .nil s
  | cons a as ih =>
    rw [foldlM_cons] at h
    obtain ⟨u, hu, h⟩ := h.of_bind
    exact .cons hu (ih h)

theorem Surely.yields (h : x.Surely a) : x.Yields a :=
  let ⟨u, hu⟩ := h {}
  ⟨{}, u, hu⟩

theorem Surely.bind (hx : x.Surely a) (hf : (f a).Surely b) :
    (x >>= f).Surely b := by
  intro t
  obtain ⟨u, hu⟩ := hx t
  obtain ⟨v, hv⟩ := hf u
  refine ⟨v, ?_⟩
  rw [outcome_bind, hu]
  exact hv

theorem surely_pure (a : α) : (pure a : Logged α).Surely a := fun t => ⟨t, rfl⟩

theorem surely_lift (h : r = .ok a) : (liftM r : Logged α).Surely a := by
  subst h
  exact surely_pure a

theorem surely_print (line : String) : (print line).Surely () := fun _ => ⟨_, rfl⟩

theorem surely_printIf (b : Bool) (line : String) : (printIf b line).Surely () := by
  cases b with
  | false => exact surely_pure ()
  | true => exact surely_print line

theorem Endless.not_yields (h : x.Endless) : ¬ x.Yields a := by
  rintro ⟨t, u, hu⟩
  obtain ⟨v, hv⟩ := h t
  rw [hu] at hv
  cases congrArg Prod.fst hv

theorem Endless.bind (h : x.Endless) : (x >>= f).Endless := by
  intro t
  obtain ⟨u, hu⟩ := h t
  refine ⟨u, ?_⟩
  rw [outcome_bind, hu]
  rfl

theorem Surely.bind_endless (hx : x.Surely a) (hf : (f a).Endless) : (x >>= f).Endless := by
  intro t
  obtain ⟨u, hu⟩ := hx t
  obtain ⟨v, hv⟩ := hf u
  refine ⟨v, ?_⟩
  rw [outcome_bind, hu]
  exact hv

theorem endless_lift (h : r = .error .endless) : (liftM r : Logged α).Endless := by
  subst h
  exact fun t => ⟨t, rfl⟩

section Comes

variable {P : α → Prop} {Q : β → Prop}

theorem Surely.comes (h : x.Surely a) (ha : P a) : x.Comes P := .inr ⟨a, h, ha⟩

theorem Comes.imp {Q : α → Prop} (h : x.Comes P) (hPQ : ∀ a, x.Yields a → P a → Q a) :
    x.Comes Q := by
  rcases h with hend | ⟨a, ha, hP⟩
  · exact .inl hend
  · exact .inr ⟨a, ha, hPQ a ha.yields hP⟩

theorem Comes.and_yields (h : x.Comes P) : x.Comes fun a => x.Yields a ∧ P a :=
  h.imp fun _ ha hP => ⟨ha, hP⟩

theorem Comes.bind (hx : x.Comes P) (hf : ∀ a, P a → (f a).Comes Q) : (x >>= f).Comes Q := by
  rcases hx with hend | ⟨a, ha, hP⟩
  · exact .inl hend.bind
  · rcases hf a hP with hend | ⟨b, hb, hQ⟩
    · exact .inl (ha.bind_endless hend)
    · exact .inr ⟨b, ha.bind hb, hQ⟩

theorem Surely.bind_comes (hx : x.Surely a) (hf : (f a).Comes Q) : (x >>= f).Comes Q := by
  refine (hx.comes (P := (· = a)) rfl).bind ?_
  rintro _ rfl
  exact hf

theorem Comes.surely (h : x.Comes P) (hend : ¬ x.Endless) : ∃ a, x.Surely a ∧ P a :=
  h.resolve_left hend

end Comes

end Logged

end WorkflowInference
