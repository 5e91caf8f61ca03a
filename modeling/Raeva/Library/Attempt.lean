import Raeva.Library.Edits

/-!
# Computations that keep their state when they fail

A computation reads and updates a state, and returns a value or an error; the
state it leaves survives an error.  `Attempt.ReturnsFrom` says that some state
with a property makes a computation return a value; its inversion rules take a
`do` block apart without unfolding the monad.
-/

namespace Raeva

open List

variable {ε α β : Type}

theorem bind_eq_ok {x : Except ε α} {f : α → Except ε β} {b : β} (h : (x >>= f) = .ok b) :
    ∃ a, x = .ok a ∧ f a = .ok b := by
  cases x with
  | error e => cases h
  | ok a => exact ⟨a, rfl, h⟩

theorem ok_bind (a : α) (f : α → Except ε β) : (Except.ok a >>= f) = f a :=
  rfl

theorem eq_ok_of_toOption {x : Except ε α} {a : α} (h : x.toOption = some a) : x = .ok a := by
  cases x with
  | error e => cases h
  | ok b => exact congrArg Except.ok (Option.some.inj h)

section MapM

variable {f : α → Except ε β} {l : List α} {l' : List β}

theorem mapM_eq_ok_iff_forall₂ : l.mapM f = .ok l' ↔ Forall₂ (fun a b => f a = .ok b) l l' := by
  induction l generalizing l' with
  | nil => simp [pure, Except.pure, eq_comm]
  | cons a l ih =>
    rw [mapM_cons, forall₂_cons_left_iff]
    constructor
    · intro h
      obtain ⟨b, hb, h⟩ := bind_eq_ok h
      obtain ⟨rest, hrest, h⟩ := bind_eq_ok h
      exact ⟨b, rest, hb, ih.mp hrest, (Except.ok.inj h).symm⟩
    · rintro ⟨b, rest, hb, hrest, rfl⟩
      rw [hb, ih.mpr hrest]
      rfl

theorem mapM_map_eq_ok {g : β → α} (h : ∀ b ∈ l', f (g b) = .ok b) : (l'.map g).mapM f = .ok l' :=
  mapM_eq_ok_iff_forall₂.mpr (forall₂_map_left_iff.mpr (forall₂_same.mpr h))

theorem mem_of_mapM_eq_ok (h : l.mapM f = .ok l') : ∀ b ∈ l', ∃ a ∈ l, f a = .ok b :=
  fun _ => mem_of_forall₂ (mapM_eq_ok_iff_forall₂.mp h)

theorem getElem?_of_mapM_eq_ok (h : l.mapM f = .ok l') {k : ℕ} {a : α} (ha : l[k]? = some a) :
    ∃ b, l'[k]? = some b ∧ f a = .ok b := by
  rw [mapM_eq_ok_iff_forall₂] at h
  induction h generalizing k with
  | nil => cases ha
  | cons hb _ ih =>
    cases k with
    | zero =>
      cases ha
      exact ⟨_, rfl, hb⟩
    | succ k => exact ih ha

end MapM

/-- A reflexive and transitive relation that every step of a loop meets relates
its ends. -/
theorem foldlM_rel {R : β → β → Prop} (hrefl : ∀ b, R b b) (htrans : ∀ a b c, R a b → R b c → R a c)
    {f : β → α → Except ε β} {l : List α} (hstep : ∀ a ∈ l, ∀ b b', f b a = .ok b' → R b b')
    {b b' : β} (h : l.foldlM f b = .ok b') : R b b' := by
  induction l generalizing b with
  | nil =>
    rw [foldlM_nil] at h
    cases h
    exact hrefl _
  | cons a l ih =>
    rw [foldlM_cons] at h
    obtain ⟨b₁, hb₁, hrest⟩ := bind_eq_ok h
    exact htrans b b₁ b' (hstep a mem_cons_self b b₁ hb₁)
      (ih (fun a' ha' => hstep a' (mem_cons_of_mem a ha')) hrest)

def Attempt (σ ε α : Type) : Type :=
  σ → Except ε α × σ

namespace Attempt

variable {σ ε ε' α β : Type}

def pure (a : α) : Attempt σ ε α :=
  fun s => (.ok a, s)

def bind (m : Attempt σ ε α) (k : α → Attempt σ ε β) : Attempt σ ε β :=
  fun s =>
    match m s with
    | (.ok a, s') => k a s'
    | (.error e, s') => (.error e, s')

instance : Monad (Attempt σ ε) where
  pure := Attempt.pure
  bind := Attempt.bind

def fail (e : ε) : Attempt σ ε α :=
  fun s => (.error e, s)

def ofExcept (x : Except ε α) : Attempt σ ε α :=
  fun s => (x, s)

def get : Attempt σ ε σ :=
  fun s => (.ok s, s)

def modify (f : σ → σ) : Attempt σ ε Unit :=
  fun s => (.ok (), f s)

/-- The first value that one of the computations, run in turn, finds. -/
def firstSome : List (Attempt σ ε (Option α)) → Attempt σ ε (Option α)
  | [] => Attempt.pure none
  | m :: ms => m.bind fun
      | some a => Attempt.pure (some a)
      | none => firstSome ms

def mapError (f : ε → ε') (m : Attempt σ ε α) : Attempt σ ε' α :=
  fun s =>
    match m s with
    | (.ok a, s') => (.ok a, s')
    | (.error e, s') => (.error (f e), s')

/-- From a state with `I` the computation can return the value. -/
def ReturnsFrom (I : σ → Prop) (m : Attempt σ ε α) (a : α) : Prop :=
  ∃ s s', I s ∧ m s = (.ok a, s')

def Returns (m : Attempt σ ε α) (a : α) : Prop :=
  m.ReturnsFrom (fun _ => True) a

/-- The computation leaves a state with `I` from every state with `I`, however it ends. -/
def Keeps (I : σ → Prop) (m : Attempt σ ε α) : Prop :=
  ∀ s, I s → I (m s).2

variable {I : σ → Prop} {s s' : σ} {a : α} {m : Attempt σ ε α} {k : α → Attempt σ ε β}

theorem returns_of_toOption (h : (m s).1.toOption = some a) : m.Returns a :=
  ⟨s, (m s).2, trivial, Prod.ext (eq_ok_of_toOption h) rfl⟩

@[simp] theorem not_returnsFrom_fail {e : ε} : ¬ (fail e : Attempt σ ε α).ReturnsFrom I a := by
  rintro ⟨s, s', -, h⟩
  cases h

theorem not_returns_fail {e : ε} : ¬ (fail e : Attempt σ ε α).Returns a :=
  not_returnsFrom_fail

theorem ReturnsFrom.of_pure {b : α} (h : (Pure.pure a : Attempt σ ε α).ReturnsFrom I b) :
    b = a := by
  obtain ⟨s, s', -, h⟩ := h
  cases h
  rfl

theorem ReturnsFrom.ofExcept {x : Except ε α} (h : (ofExcept x : Attempt σ ε α).ReturnsFrom I a) :
    x = .ok a := by
  obtain ⟨s, s', -, h⟩ := h
  exact (Prod.mk.inj h).1

theorem ReturnsFrom.bind {b : β} (hm : m.Keeps I) (h : (m >>= k).ReturnsFrom I b) :
    ∃ a, m.ReturnsFrom I a ∧ (k a).ReturnsFrom I b := by
  obtain ⟨s, s', hs, h⟩ := h
  have hunfold : (m >>= k) s = Attempt.bind m k s := rfl
  rw [hunfold, Attempt.bind] at h
  have ht := hm s hs
  rcases hms : m s with ⟨e | a, t⟩
  · simp [hms] at h
  · simp only [hms] at h ht
    exact ⟨a, ⟨s, t, hs, hms⟩, ⟨t, s', ht, h⟩⟩

theorem Returns.bind {b : β} (h : (m >>= k).Returns b) : ∃ a, m.Returns a ∧ (k a).Returns b :=
  ReturnsFrom.bind (fun _ _ => trivial) h

theorem ReturnsFrom.mapError {f : ε → ε'} (h : (m.mapError f).ReturnsFrom I a) :
    m.ReturnsFrom I a := by
  obtain ⟨s, s', hs, h⟩ := h
  rw [Attempt.mapError] at h
  rcases hm : m s with ⟨e | b, t⟩
  · simp [hm] at h
  · simp only [hm, Prod.mk.injEq, Except.ok.injEq] at h
    obtain ⟨rfl, rfl⟩ := h
    exact ⟨s, t, hs, hm⟩

theorem Keeps.pure (a : α) : Keeps I (Pure.pure a : Attempt σ ε α) :=
  fun _ h => h

theorem Keeps.fail (e : ε) : Keeps I (Attempt.fail e : Attempt σ ε α) :=
  fun _ h => h

theorem Keeps.ofExcept (x : Except ε α) : Keeps I (Attempt.ofExcept x : Attempt σ ε α) :=
  fun _ h => h

theorem Keeps.bind (hm : m.Keeps I) (hk : ∀ a, (k a).Keeps I) : (m >>= k).Keeps I := by
  intro s hs
  have hunfold : (m >>= k) s = Attempt.bind m k s := rfl
  have ht := hm s hs
  rw [hunfold, Attempt.bind]
  rcases hms : m s with ⟨e | a, t⟩
  · simpa only [hms] using ht
  · rw [hms] at ht
    exact hk a t ht

theorem Keeps.mapError {f : ε → ε'} (hm : m.Keeps I) : (m.mapError f).Keeps I := by
  intro s hs
  have ht := hm s hs
  rw [Attempt.mapError]
  rcases hms : m s with ⟨e | a, t⟩ <;> simpa only [hms] using ht

def Settled (m : Attempt σ ε α) : Prop :=
  ∀ a b, m.Returns a → m.Returns b → a = b

theorem Settled.pure (a : α) : Settled (Pure.pure a : Attempt σ ε α) :=
  fun _ _ h h' => h.of_pure.trans h'.of_pure.symm

theorem Settled.fail (e : ε) : Settled (Attempt.fail e : Attempt σ ε α) :=
  fun _ _ h _ => absurd h not_returns_fail

theorem Settled.bind (hm : Settled m) (hk : ∀ a, Settled (k a)) : Settled (m >>= k) := by
  intro b b' h h'
  obtain ⟨a, ha, hb⟩ := h.bind
  obtain ⟨a', ha', hb'⟩ := h'.bind
  obtain rfl := hm a a' ha ha'
  exact hk a b b' hb hb'

/-! ## Equations -/

theorem fail_bind (e : ε) (f : α → Attempt σ ε β) : (Attempt.fail e >>= f) = Attempt.fail e :=
  rfl

theorem pure_bind (a : α) (f : α → Attempt σ ε β) : (Pure.pure a >>= f) = f a :=
  rfl

/-- A computation that never ends without a value. -/
def Finds (m : Attempt σ ε (Option α)) : Prop :=
  ∀ s, (m s).1 ≠ .ok none

theorem Finds.bind {m : Attempt σ ε β} {f : β → Attempt σ ε (Option α)} (hf : ∀ b, Finds (f b)) :
    Finds (m >>= f) := by
  intro s
  have hunfold : (m >>= f) s = Attempt.bind m f s := rfl
  rw [hunfold, Attempt.bind]
  rcases m s with ⟨e | b, t⟩
  · exact fun h => by cases h
  · exact hf b t

theorem Finds.pure (a : α) : Finds (Pure.pure (some a) : Attempt σ ε (Option α)) :=
  fun _ h => by cases h

theorem firstSome_of_finds {m : Attempt σ ε (Option α)} (ms : List (Attempt σ ε (Option α)))
    (h : Finds m) : firstSome (m :: ms) = m := by
  funext s
  rw [firstSome, Attempt.bind]
  rcases hms : m s with ⟨e | ⟨⟩ | a, t⟩
  · rfl
  · exact absurd (congrArg Prod.fst hms) (h s)
  · rfl

theorem firstSome_singleton (m : Attempt σ ε (Option α)) : firstSome [m] = m := by
  funext s
  rw [firstSome, Attempt.bind]
  rcases m s with ⟨e | ⟨⟩ | a, t⟩ <;> rfl

theorem foldlM_congr {f f' : β → α → Attempt σ ε β} {l : List α}
    (h : ∀ b, ∀ a ∈ l, f b a = f' b a) (b : β) : l.foldlM f b = l.foldlM f' b := by
  induction l generalizing b with
  | nil => rfl
  | cons a l ih =>
    rw [foldlM_cons, foldlM_cons, h b a mem_cons_self]
    refine congrArg _ (funext fun b' => ?_)
    exact ih (fun b a' ha' => h b a' (mem_cons_of_mem a ha')) b'

end Attempt

end Raeva
