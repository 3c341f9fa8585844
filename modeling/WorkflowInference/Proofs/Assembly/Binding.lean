import WorkflowInference.Proofs.Assembly.Scene
import WorkflowInference.Proofs.Logged

/-!
What binding does to a scene. Only an output that is bound to an input asks for a mark; all other
bindings are steady.
-/
namespace WorkflowInference.Assembly

open Keyed
open Scene (Steady Linking)

variable {s : Scene} {g : Given} {type : Doc} {Q : Unit → Scene → Prop} {E : Scene → Prop}
  {p : Process} {implicit : Bool} {o : Output}

namespace Assemble

variable {α β : Type} {x : Assemble α} {f : α → Assemble β} {R S : Scene → Scene → Prop}

/-- However a computation ends, the scene has changed in this way. -/
def Moves (R : Scene → Scene → Prop) (x : Assemble α) : Prop := ∀ s, Ends x s (fun _ => R s) (R s)

class Absorbs (R : Scene → Scene → Prop) (S : outParam (Scene → Scene → Prop)) : Prop where
  same : ∀ {s t}, t.processes = s.processes → R s t
  of_quiet : ∀ {s t}, S s t → R s t
  trans : ∀ {s t u}, S s t → R t u → R s u

instance : Absorbs Steady Steady := ⟨Steady.of_processes, fun h => h, Steady.trans⟩

instance : Absorbs Linking Steady :=
  ⟨fun h => (Steady.of_processes h).linking, Steady.linking, Steady.trans_linking⟩

namespace Moves

theorem pure [Absorbs R S] (a : α) : Moves R (pure a) := fun _ => .pure (Absorbs.same rfl)

theorem throw [Absorbs R S] (e : Failure) : Moves R (throw e : Assemble α) :=
  fun _ => .throw (Absorbs.same rfl)

variable {i : Nat} {key : String} {as : List α}

theorem after [Absorbs R S] (hx : Moves R x) (hst : S s t) : Ends x t (fun _ => R s) (R s) :=
  (hx t).mono (Absorbs.trans hst)

theorem bind [Absorbs R S] (hx : Moves S x) (hf : ∀ a, Moves R (f a)) : Moves R (x >>= f) :=
  fun s =>
  ((hx s).imp (fun _ _ h => h) fun _ => Absorbs.of_quiet).bind fun a _ => (hf a).after

theorem lift [Absorbs R S] (r : Result α) : Moves R (liftM r : Assemble α) := fun _ =>
  .lift (fun _ _ => Absorbs.same rfl) (Absorbs.same rfl)

theorem get [Absorbs R S] : Moves R (get : Assemble Scene) := fun _ => .get (Absorbs.same rfl)

theorem process_bind {f : Process → Assemble β} [Absorbs R S] (hf : ∀ p, Moves R (f p)) :
    Moves R (process i >>= f) := fun s => .process_bind (Absorbs.same rfl) fun p _ => hf p s

theorem input_bind {f : Input → Assemble β} [Absorbs R S] (hf : ∀ x, Moves R (f x)) :
    Moves R (input i key >>= f) := fun s => .input_bind (Absorbs.same rfl) fun _ x _ _ => hf x s

theorem output_bind {f : Output → Assemble β} [Absorbs R S] (hf : ∀ x, Moves R (f x)) :
    Moves R (output i key >>= f) := fun s => .output_bind (Absorbs.same rfl) fun _ x _ _ => hf x s

theorem ofAct [Absorbs R S] (x : Act α) : Moves R (ofAct x) := by
  intro s
  have hsame : R s ((Assemble.ofAct x).outcome s).2 := Absorbs.same rfl
  exact ⟨fun h => by rwa [h] at hsame, fun h => by rwa [h] at hsame⟩

theorem files [Absorbs R S] : Moves R files := fun _ => .of_ok rfl (Absorbs.same rfl)

theorem throw_bind [Absorbs R S] (e : Failure) : Moves R (MonadExcept.throw e >>= f) := fun _ =>
  .throw_bind (Absorbs.same rfl)

theorem ite [Decidable c] (hx : Moves R x) (hy : Moves R y) : Moves R (if c then x else y) := by
  split
  · exact hx
  · exact hy

theorem linking (h : Moves Steady x) : Moves Linking x := fun s => (h s).mono Steady.linking

theorem forM [Absorbs S S] {g : α → Assemble PUnit} (h : ∀ a, Moves S (g a)) :
    Moves S (as.forM g) := by
  induction as with
  | nil => exact pure _
  | cons a as ih => exact bind (h a) fun _ => ih

theorem mapM [Absorbs S S] {g : α → Assemble β} (h : ∀ a, Moves S (g a)) : Moves S (as.mapM g) := by
  induction as with
  | nil => exact pure _
  | cons a as ih =>
    rw [List.mapM_cons]
    exact bind (h a) fun _ => bind ih fun _ => pure _

end Moves

theorem resolve_name {f g : Facts} {candidate : Doc} {context : String}
    (h : resolve f candidate context = .ok g) : g.name = f.name := by
  unfold resolve at h
  split at h
  · cases h; rfl
  split at h
  · obtain ⟨t, -, h⟩ := Result.of_bind h
    cases h
    rfl
  split at h
  · cases h; rfl
  · cases h

theorem make_name {key : String} {f : Facts} (h : Facts.make key type = .ok f) :
    f.name = plainName key := by
  obtain ⟨t, -, n, hn, h⟩ := Result.of_bind₂ h
  have hname : n = plainName key := by
    simp only [Authoring.checkName] at hn
    split at hn
    · exact (Except.ok.inj hn).symm
    · cases hn
  split at h
  · cases h
  · cases h
    exact hname

theorem Ends.warned {y : Assemble β} {Q : β → Scene → Prop} {workflow name kind : String}
    (h : ∀ t, t.processes = s.processes → Ends y t Q E) : Ends (do
      if implicit then warnImplicit workflow name kind
      y) s Q E := by
  cases implicit with
  | false => exact h s rfl
  | true =>
    exact .bind (P := fun _ u => u.processes = s.processes) (.of_ok rfl rfl) fun _ => h

section Slots

variable {i : Nat} {key : String} {H : String → OutputRef → Prop} {b : Binding} {w : Process}

theorem sound_input {x : Input} (hs : s.Sound H) (hp : s.process? i = some p)
    (hx : p.inputs.lookup key = some x) :
    s.Backed x ∧ (p.isStep = false → x.facts.name = plainName key) :=
  ⟨(hs i p hp).backed _ (mem_of_lookup hx), fun h => (hs i p hp).named h _ (mem_of_lookup hx)⟩

theorem retyped_steady {x : Input} {f : Facts} (hp : s.process? i = some p)
    (hx : p.inputs.lookup key = some x) (hf : f.name = x.facts.name) :
    s.Steady (s.put i { p with inputs := put p.inputs key { x with facts := f } }) := by
  refine .put hp (.setInput _) fun H hs =>
    (hs i p hp).setInput (sound_input hs hp hx).1 fun hstep => ?_
  exact hf.trans ((sound_input hs hp hx).2 hstep)

theorem retypeInput_steady (key : String) {r : Input → Result Facts}
    (hr : ∀ x f, r x = .ok f → f.name = x.facts.name) :
    Moves Steady (do
      let x ← input i key
      let f ← liftM (r x)
      setInput i key { x with facts := f }) := fun s =>
  .input_bind (.refl s) fun _ x hp hx => .lift_bind (.refl s) fun f hf =>
    .setInput_of hp (retyped_steady hp hx (hr x f hf))

theorem ensureInput_moves [Absorbs S S]
    (hdeclare : ∀ s p f, s.process? i = some p → p.inputs.lookup key = none → Facts.make key type =
      .ok f → S s (s.put i { p with inputs := put p.inputs key { facts := f } }))
    (hretype : ∀ s p x f, s.process? i = some p → p.inputs.lookup key = some x → f.name =
      x.facts.name → S s (s.put i { p with inputs := put p.inputs key { x with facts := f } })) :
    Moves S (ensureInput i key type implicit) := by
  intro s
  refine .process_bind (Absorbs.same rfl) fun p hp => ?_
  have hlast : Moves S (do
      let x ← input i key
      let f ← liftM (resolve x.facts type (p.name ++ ".inputs." ++ key))
      setInput i key { x with facts := f }) := fun t =>
    .input_bind (Absorbs.same rfl) fun q x hq hx => .lift_bind (Absorbs.same rfl) fun f hf =>
      .setInput_of hq (hretype t q x f hq hx (resolve_name hf))
  cases hx : p.inputs.lookup key with
  | some x => simpa [has, hx] using hlast s
  | none =>
    simp only [has, hx, Option.isSome_none, Bool.not_false, if_true]
    refine .warned fun t ht => .lift_bind (Absorbs.same ht) fun f hf => ?_
    have hpt : t.process? i = some p := (Scene.process?_congr ht i).trans hp
    refine .bind (.setInput_of hpt ?_) fun _ u hu => hlast.after hu
    exact Absorbs.trans (Absorbs.same ht) (hdeclare t p f hpt hx hf)

theorem ensureInput_steady : Moves Steady (ensureInput i key type implicit) := by
  refine ensureInput_moves (fun s p f hp _ hf => .put hp (.setInput _) fun H hs => ?_)
    fun _ _ _ _ => retyped_steady
  exact (hs i p hp).setInput (fun _ _ hb => by cases hb) fun _ => make_name hf

theorem sound_output (hs : s.Sound H) (hp : s.process? i = some p)
    (ho : p.outputs.lookup key = some o) :
    (∀ a, o.mark = some a → p.isStep ∧ H a ⟨i, key⟩) ∧ ∀ src, o.source = some src →
      s.Supplies p src :=
  ⟨(hs i p hp).marks _ (mem_of_lookup ho), (hs i p hp).sources _ (mem_of_lookup ho)⟩

theorem rewritten_steady (hp : s.process? i = some p) (ho : p.outputs.lookup key = some o)
    (hname : o'.facts.name = o.facts.name) (hmark : o'.mark = o.mark)
    (hsource : ∀ src, o'.source = some src → o.source = some src ∨ s.Supplies p src) :
    s.Steady (s.put i { p with outputs := put p.outputs key o' }) := by
  refine .put hp (.setOutput fun o'' ho'' => ?_) fun H hs =>
    (hs i p hp).setOutput (fun a ha => ?_) fun src hsrc => ?_
  · cases ho.symm.trans ho''
    exact ⟨hname, fun _ a ha => hmark.trans ha⟩
  · exact (sound_output hs hp ho).1 a (hmark.symm.trans ha)
  · exact (hsource src hsrc).elim ((sound_output hs hp ho).2 src) id

theorem retypeOutput_steady (key : String) {r : Output → Result Facts}
    (hr : ∀ o f, r o = .ok f → f.name = o.facts.name) :
    Moves Steady (do
      let o ← output i key
      let f ← liftM (r o)
      setOutput i key { o with facts := f }) := fun s =>
  .output_bind (.refl s) fun _ o hp ho => .lift_bind (.refl s) fun f hf =>
    .setOutput_of hp (rewritten_steady hp ho (hr o f hf) rfl fun _ h => .inl h)

theorem ensureOutput_steady : Moves Steady (ensureOutput i key type implicit) := by
  intro s
  refine .process_bind (.refl s) fun p hp => ?_
  have hretype := retypeOutput_steady key (i := i)
    (r := fun x => resolve x.facts type (p.name ++ ".outputs." ++ key)) fun x f hf =>
    resolve_name hf
  -- Nothing is overwritten: the output is declared only when the process has none under the key.
  cases ho : p.outputs.lookup key with
  | some o => simpa [has, ho] using hretype s
  | none =>
    simp only [has, ho, Option.isSome_none, Bool.not_false, if_true]
    refine .warned fun t ht => .lift_bind (.of_processes ht) fun f _ => ?_
    have hpt : t.process? i = some p := (Scene.process?_congr ht i).trans hp
    refine .bind (.setOutput_of hpt (Steady.trans (.of_processes ht) (.put hpt ?_ fun H hs => ?_)))
      fun _ u hu => hretype.after hu
    · exact .setOutput fun o' ho' => by cases ho.symm.trans ho'
    · exact (hs i p hpt).setOutput (fun _ h => by cases h) fun _ h => by cases h

def Bound (t : Scene) (i : Nat) (key name : String) (b : Binding) : Prop :=
  ∃ p x, t.process? i = some p ∧ p.name = name ∧ p.inputs.lookup key = some x ∧ x.binding = some b

theorem bind_steady {x : Input} {look : Assemble Doc}
    (hlook : ∀ t, Ends look t (fun _ u => u = t) fun u => u = t) (hp : s.process? i = some p)
    (hx : p.inputs.lookup key = some x)
    (hb : ∀ m src, b = .linked m src → ∃ r a, src = some r ∧ m = .str a ∧ s.Carries r a) : Ends (do
      setInput i key (x.bind b)
      let type ← look
      let y ← liftM ((x.bind b).setBoundType type)
      setInput i key y) s
      (fun _ t => s.Steady t ∧ Bound t i key p.name b) (fun t =>
        s.Steady t ∧ Bound t i key p.name b) := by
  -- The input is written twice; `hwrite` is one of these times.
  have hwrite : ∀ {u : Scene} {q : Process} {y : Input}, s.Steady u → u.process? i = some q →
      q.name = p.name → (∃ z, q.inputs.lookup key = some z ∧ z.facts.name = y.facts.name) →
      y.binding = some b → s.Steady (u.put i { q with inputs := put q.inputs key y }) ∧
      Bound (u.put i { q with inputs := put q.inputs key y }) i key p.name b := by
    intro u q y hu hq hname ⟨z, hz, hzname⟩ hy
    constructor
    · refine hu.trans (.put hq (.setInput y) fun H hs => (hs i q hq).setInput ?_ fun hstep => ?_)
      · intro m src hm
        obtain ⟨r, a, hsrc, hma, hc⟩ := hb m src (Option.some.inj (hy.symm.trans hm))
        exact ⟨r, a, hsrc, hma, hc.mono hu.extends_⟩
      · exact hzname ▸ (sound_input hs hq hz).2 hstep
    · exact ⟨_, y, Scene.process?_put_self hq, hname, by rw [lookup_put, if_pos rfl], hy⟩
  have hfirst := hwrite (y := x.bind b) (.refl s) hp rfl ⟨x, hx, rfl⟩ rfl
  refine .bind (P := fun _ t => t = s.put i { p with inputs := put p.inputs key (x.bind b) })
    (.setInput_of hp rfl) ?_
  rintro _ _ rfl
  refine .bind ((hlook _).imp (fun _ _ h => h) fun _ h => by rw [h]; exact hfirst) ?_
  rintro type _ rfl
  refine .lift_bind hfirst fun y hy => .setInput_of (Scene.process?_put_self hp) ?_
  obtain ⟨t, -, hy⟩ := Result.of_bind hy
  cases hy
  exact hwrite hfirst.1 (Scene.process?_put_self hp) rfl
    ⟨x.bind b, by rw [lookup_put, if_pos rfl], rfl⟩ rfl

theorem bind_steady_of_type {x : Input} (type : Doc) (hp : s.process? i = some p)
    (hx : p.inputs.lookup key = some x)
    (hb : ∀ m src, b = .linked m src → ∃ r a, src = some r ∧ m = .str a ∧ s.Carries r a) : Ends (do
      setInput i key (x.bind b)
      let y ← liftM ((x.bind b).setBoundType type)
      setInput i key y) s
      (fun _ t => s.Steady t ∧ Bound t i key p.name b) (fun t =>
        s.Steady t ∧ Bound t i key p.name b) := by
  have hlook : ∀ t : Scene, Ends (pure type) t (fun _ u => u = t) fun u => u = t :=
    fun t => .pure rfl
  simpa only [pure_bind] using bind_steady hlook hp hx hb

theorem bindInline_steady {d : Doc} : Moves Steady (bindInline i key d) := by
  intro s
  refine .input_bind (.refl s) fun p x hp hx => ?_
  have hlook : ∀ t : Scene, Ends (do return typeOf (← files) d) t (fun _ u => u = t) fun u =>
      u = t := fun t =>
    .of_ok rfl rfl
  have h := bind_steady hlook hp hx (b := .inline d) fun m src h => by cases h
  simp only [bind_assoc, pure_bind] at h
  exact h.mono And.left

theorem bindReference_steady {w : Nat} {name : String} :
    Moves Steady (bindReference i key w name implicit) := by
  refine .input_bind fun _ => .bind ensureInput_steady fun _ =>
    .input_bind fun outer => ?_
  intro s
  refine .input_bind (.refl s) fun p x hp hx => ?_
  have h := bind_steady_of_type outer.facts.type hp hx (b := .workflow name) fun m src h => by
    cases h
  exact h.mono And.left

theorem bindOutputRef_linking {r : OutputRef} {q : Process} (hq : s.process? r.owner = some q)
    (hstep : q.isStep) : Ends (bindOutputRef i key r) s (fun _ => s.Linking) s.Linking := by
  have hE : s.Linking s := .refl s
  refine .process_bind hE fun p hp => .output_bind hE fun q' source hq' hsource => ?_
  cases hq.symm.trans hq'
  refine .input_bind hE fun p' x hp' hx => ?_
  cases hp.symm.trans hp'
  refine .lift_bind hE fun f hf => ?_
  -- First the input takes its type.
  let p₁ : Process := { p with inputs := put p.inputs key { x with facts := f } }
  have hp₁ : (s.put i p₁).process? i = some p₁ := Scene.process?_put_self hp
  have h₁ : s.Steady (s.put i p₁) := retyped_steady hp hx (resolve_name hf)
  refine .bind (P := fun _ t => t = s.put i p₁) (.setInput_of hp rfl) ?_
  rintro _ _ rfl
  -- Then the output gets its mark, if it has none.
  obtain ⟨q₁, hq₁, hstep₁, houts₁⟩ : ∃ q₁, (s.put i p₁).process? r.owner = some q₁ ∧
      q₁.isStep = q.isStep ∧ q₁.outputs = q.outputs :=
    Scene.process?_put_of hp hq ⟨rfl, rfl⟩ fun h => h ▸ ⟨rfl, rfl⟩
  let m : String := source.mark.getD (key ++ p.name)
  let source₂ : Output := { source with mark := some m, linked := true }
  let q₂ : Process := { q₁ with outputs := put q₁.outputs r.key source₂ }
  have hext₂ : q₁.Extends q₂ := by
    refine .setOutput fun o' ho' => ?_
    rw [houts₁, hsource] at ho'
    cases ho'
    exact ⟨rfl, fun _ a ha => by simp [source₂, m, ha]⟩
  refine .bind (P := fun _ t => t = (s.put i p₁).put r.owner q₂) (.setOutput_of hq₁ rfl) ?_
  rintro _ _ rfl
  -- At last the input is linked; its process is called as before.
  obtain ⟨p₂, hp₂, hname₂, hins₂⟩ : ∃ p₂, ((s.put i p₁).put r.owner q₂).process? i = some p₂ ∧
      p₂.name = p₁.name ∧ p₂.inputs = p₁.inputs :=
    Scene.process?_put_of hq₁ hp₁ ⟨rfl, rfl⟩ fun h => h ▸ ⟨rfl, rfl⟩
  have hx₂ : p₂.inputs.lookup key = some { x with facts := f } := by
    rw [hins₂, lookup_put, if_pos rfl]
  have hcarries : ((s.put i p₁).put r.owner q₂).Carries r m :=
    ⟨q₂, source₂, Scene.process?_put_self hq₁,
      hstep₁.trans hstep, by rw [lookup_put, if_pos rfl], rfl⟩
  refine .input_of hp₂ hx₂ ?_
  have hfinal := bind_steady_of_type source₂.facts.type hp₂ hx₂ (b := .linked (.str m) (some r))
      fun _ _ h => by
    cases h
    exact ⟨r, m, rfl, rfl, hcarries⟩
  have hlink : ∀ t, ((s.put i p₁).put r.owner q₂).Steady t ∧
      Bound t i key p₂.name (.linked (.str m) (some r)) →
      s.Linking t := by
    rintro t ⟨ht, p₃, x₃, hp₃, hname₃, hx₃, hb₃⟩
    refine ⟨(h₁.extends_.trans (.put hq₁ hext₂)).trans ht.extends_, fun H hs hallow =>
      ht.sound H ?_⟩
    have hs₁ := h₁.sound H hs
    have hasked : H (key ++ p.name) r := by
      have h := hallow i p₃ key x₃ r hp₃ hx₃ (by simp [Input.source?, hb₃])
      rwa [hname₃, hname₂] at h
    refine hs₁.put hq₁ hext₂
      ((hs₁ _ q₁ hq₁).setOutput (fun a ha => ⟨hstep₁.trans hstep, ?_⟩) fun src hsrc => ?_)
    · cases ha
      cases hmark : source.mark with
      | none => simpa [m, hmark] using hasked
      | some a => simpa [m, hmark] using ((sound_output hs hq hsource).1 a hmark).2
    · exact (sound_output (o := source) hs₁ hq₁ (houts₁ ▸ hsource)).2 src hsrc
  exact hfinal.mono (hlink _)

theorem bindExisting_linking : Moves Linking (bindExisting i key g) := by
  cases g with
  | literal d => exact bindInline_steady.linking
  | input j k => exact bindInline_steady.linking
  | reference w name implicit => exact bindReference_steady.linking
  | output r =>
    intro s
    have hE : s.Linking s := .refl s
    refine .process_bind hE fun q hq => ?_
    split
    · rename_i hstep
      exact bindOutputRef_linking hq hstep
    · exact .output_bind hE fun _ _ _ _ => .throw hE

theorem bindInput_moves [Absorbs R S] (hensure : Moves S (ensureInput i key .null implicit))
    (h : Moves R (bindExisting i key g)) : Moves R (bindInput i key g implicit) :=
  .process_bind fun _ => .ite (.input_bind fun _ => h) (.bind hensure fun _ => h)

theorem bindInput_linking : Moves Linking (bindInput i key g implicit) :=
  bindInput_moves ensureInput_steady bindExisting_linking

theorem bindOutput_steady (hw : s.process? i = some w)
    (hstep : w.isStep = false) : Ends (bindOutput i key g) s (fun _ => s.Steady) s.Steady := by
  refine (ensureOutput_steady s).bind fun _ t hst => .process_bind hst fun p hp =>
    .output_bind hst fun p' own hp' hown => ?_
  cases hp.symm.trans hp'
  have hpstep : p.isStep = false := by
    obtain ⟨q, hq, hwq⟩ := hst.extends_ i w hw
    cases hp.symm.trans hq
    exact hwq.isStep.trans hstep
  cases g with
  | literal d => exact .throw hst
  | input j k => exact .throw hst
  | output r =>
    refine .process_bind hst fun q hq => ?_
    split
    · rename_i hqstep
      refine .output_bind hst fun q' source hq' hsource => ?_
      cases hq.symm.trans hq'
      refine .lift_bind hst fun f hf => ?_
      have hne : i ≠ r.owner := by
        rintro rfl
        cases hp.symm.trans hq
        rw [hpstep] at hqstep
        cases hqstep
      refine .bind (P := fun _ u => s.Steady u ∧ u.process? r.owner = some q) ?_ ?_
      · refine .setOutput_of hp
          ⟨hst.trans (rewritten_steady hp hown (resolve_name hf) rfl fun src hsrc => ?_), ?_⟩
        · cases hsrc
          exact .inr (.output hq hqstep hsource)
        · rw [Scene.process?_put hp, if_neg hne, hq]
      · rintro _ u ⟨hsu, hqu⟩
        exact .setOutput_of hqu (hsu.trans (rewritten_steady hqu hsource rfl rfl fun _ h => .inl h))
    · exact .throw hst
  | reference v name implicit =>
    show Ends (if _ then _ else _) _ _ _
    split
    · refine .bind ((ensureInput_steady t).imp (fun _ _ h => h) fun _ => hst.trans)
        fun _ u htu => ?_
      have hsu := hst.trans htu
      obtain ⟨pu, hpu, hppu⟩ := htu.extends_ i p hp
      have hpustep : pu.isStep = false := hppu.isStep.trans hpstep
      refine .input_bind hsu fun p' x hp' hx => ?_
      cases hpu.symm.trans hp'
      refine .lift_bind hsu fun f hf => .setOutput_of hpu ?_
      -- The output was read before the input was declared; a workflow has no marks to lose.
      let o : Output := { own with facts := f, linked := true, source := some ⟨none, name, none⟩ }
      have hext : pu.Extends { pu with outputs := put pu.outputs key o } := by
        refine .setOutput fun o' ho' => ⟨?_, fun h => by rw [hpustep] at h; cases h⟩
        obtain ⟨o'', ho'', hname, -⟩ := hppu.outputs key own hown
        cases ho'.symm.trans ho''
        exact (resolve_name hf).trans hname.symm
      refine ⟨hsu.extends_.trans (.put hpu hext), fun H hs => (hsu.sound H hs).put hpu hext ?_⟩
      refine (hsu.sound H hs i pu hpu).setOutput (fun a ha => ?_) fun src hsrc => ?_
      · rw [((sound_output (hst.sound H hs) hp hown).1 a ha).1] at hpstep
        cases hpstep
      · cases hsrc
        exact .input (by simp [has, hx])
    · exact .throw hst

theorem addOutput_steady {g : Option Given} (hw : s.process? i = some w)
    (hstep : w.isStep = false) : Ends (addOutput i key g type) s (fun _ => s.Steady) s.Steady := by
  refine (ensureOutput_steady s).bind fun _ t hst => ?_
  obtain ⟨q, hq, hwq⟩ := hst.extends_ i w hw
  cases g with
  | none => exact .pure hst
  | some g => exact (bindOutput_steady hq (hwq.isStep.trans hstep)).mono hst.trans

theorem assignOutput_steady : Moves Steady (assignOutput i key g) := by
  intro s
  refine .process_bind (.refl s) fun p hp => ?_
  split
  · exact .throw (.refl s)
  · rename_i hstep
    refine (ensureOutput_steady s).bind fun _ t hst => ?_
    obtain ⟨q, hq, hpq⟩ := hst.extends_ i p hp
    have hqstep : q.isStep = false := hpq.isStep.trans (by simpa using hstep)
    exact (bindOutput_steady hq hqstep).mono hst.trans

end Slots

end Assemble

end WorkflowInference.Assembly
