/-! # Rules for programs with state and exceptions

An `EStateM` program that fails keeps the state it failed in. The rules below take a run apart
at its binds, in the direction an inversion proof needs.
-/
namespace Dtrun.StateExcept
set_option autoImplicit false

variable {ε σ α β : Type}

@[simp] theorem pure_apply (a : α) (s : σ) : (pure a : EStateM ε σ α) s = .ok a s := rfl

@[simp] theorem get_apply (s : σ) : (get : EStateM ε σ σ) s = .ok s s := rfl

@[simp] theorem set_apply (s t : σ) : (set t : EStateM ε σ PUnit) s = .ok ⟨⟩ t := rfl

@[simp] theorem modify_apply (f : σ → σ) (s : σ) :
    (modify f : EStateM ε σ PUnit) s = .ok ⟨⟩ (f s) := rfl

@[simp] theorem modifyGet_apply (f : σ → α × σ) (s : σ) :
    (modifyGet f : EStateM ε σ α) s = .ok (f s).1 (f s).2 := rfl

@[simp] theorem throw_apply (e : ε) (s : σ) : (throw e : EStateM ε σ α) s = .error e s := rfl

theorem bind_apply (x : EStateM ε σ α) (f : α → EStateM ε σ β) (s : σ) :
    (x >>= f) s = match x s with
      | .ok a t => f a t
      | .error e t => .error e t := rfl

@[simp] theorem bind_ok_iff {x : EStateM ε σ α} {f : α → EStateM ε σ β} {s t : σ} {b : β} :
    (x >>= f) s = .ok b t ↔ ∃ a u, x s = .ok a u ∧ f a u = .ok b t := by
  rw [bind_apply]
  cases x s with
  | ok a u =>
    constructor
    · exact fun h => ⟨a, u, rfl, h⟩
    · rintro ⟨_, _, ⟨⟩, h⟩
      exact h
  | error e u => simp

@[simp] theorem bind_error_iff {x : EStateM ε σ α} {f : α → EStateM ε σ β} {s t : σ} {e : ε} :
    (x >>= f) s = .error e t ↔
      x s = .error e t ∨ ∃ a u, x s = .ok a u ∧ f a u = .error e t := by
  rw [bind_apply]
  cases x s with
  | ok a u =>
    constructor
    · exact fun h => Or.inr ⟨a, u, rfl, h⟩
    · rintro (⟨⟨⟩⟩ | ⟨_, _, ⟨⟩, h⟩)
      exact h
  | error e u => simp

theorem bind_of_ok {x : EStateM ε σ α} {f : α → EStateM ε σ β} {s u : σ} {a : α}
    (h : x s = .ok a u) : (x >>= f) s = f a u := by
  rw [bind_apply, h]

/-- Two programs whose first parts run alike do so themselves if they do from where those lead. -/
theorem bind_congr_ok {x y : EStateM ε σ α} {f g : α → EStateM ε σ β} {s : σ} (hx : x s = y s)
    (h : ∀ a t, x s = .ok a t → f a t = g a t) : (x >>= f) s = (y >>= g) s := by
  rw [bind_apply, bind_apply, ← hx]
  cases hRun : x s with
  | ok a t => exact h a t hRun
  | error e t => rfl

theorem forM_cons_ok_iff {ι : Type} {g : ι → EStateM ε σ PUnit} {i : ι} {l : List ι} {s t : σ}
    {u : PUnit} :
    (i :: l).forM g s = .ok u t ↔ ∃ v, g i s = .ok ⟨⟩ v ∧ l.forM g v = .ok u t := by
  change (g i >>= fun _ => l.forM g) s = .ok u t ↔ _
  rw [bind_ok_iff]
  exact ⟨fun ⟨_, v, h⟩ => ⟨v, h⟩, fun ⟨v, h⟩ => ⟨⟨⟩, v, h⟩⟩

theorem discard_apply (x : EStateM ε σ α) (s : σ) :
    (discard x) s = match x s with
      | .ok _ t => .ok ⟨⟩ t
      | .error e t => .error e t := rfl

@[simp] theorem discard_ok_iff {x : EStateM ε σ α} {s t : σ} {u : PUnit} :
    (discard x) s = .ok u t ↔ ∃ a, x s = .ok a t := by
  rw [discard_apply]
  cases x s with
  | ok a v =>
    constructor
    · rintro ⟨⟩
      exact ⟨a, rfl⟩
    · rintro ⟨_, ⟨⟩⟩
      rfl
  | error e v => simp

@[simp] theorem discard_error_iff {x : EStateM ε σ α} {s t : σ} {e : ε} :
    (discard x) s = .error e t ↔ x s = .error e t := by
  rw [discard_apply]
  cases x s with
  | ok a v => simp
  | error e v => simp

theorem tryCatch_apply (x : EStateM ε σ α) (handle : ε → EStateM ε σ α) (s : σ) :
    (tryCatch x handle : EStateM ε σ α) s = match x s with
      | .ok a t => .ok a t
      | .error e t => handle e t := by
  change EStateM.tryCatch x handle s = _
  unfold EStateM.tryCatch
  cases x s with
  | ok a t => rfl
  | error e t => rfl

def FailsWith (P : ε → Prop) (x : EStateM ε σ α) : Prop := ∀ s e t, x s = .error e t → P e

namespace FailsWith

variable {P : ε → Prop}

theorem pure (a : α) : FailsWith P (pure a : EStateM ε σ α) := by
  rintro s e t ⟨⟩

theorem get : FailsWith P (get : EStateM ε σ σ) := by
  rintro s e t ⟨⟩

theorem set (t : σ) : FailsWith P (set t : EStateM ε σ PUnit) := by
  rintro s e t ⟨⟩

theorem modify (f : σ → σ) : FailsWith P (modify f : EStateM ε σ PUnit) := by
  rintro s e t ⟨⟩

theorem throw {e : ε} (h : P e) : FailsWith P (throw e : EStateM ε σ α) := by
  rintro s _ t ⟨⟩
  exact h

theorem bind {x : EStateM ε σ α} {f : α → EStateM ε σ β} (hx : FailsWith P x)
    (hf : ∀ a, FailsWith P (f a)) : FailsWith P (x >>= f) := by
  intro s e t h
  rcases bind_error_iff.mp h with h | ⟨a, u, _, h⟩
  · exact hx s e t h
  · exact hf a u e t h

theorem discard {x : EStateM ε σ α} (hx : FailsWith P x) : FailsWith P (discard x) := by
  intro s e t h
  exact hx s e t (discard_error_iff.mp h)

end FailsWith

def Succeeds (x : EStateM ε σ α) : Prop := ∀ s, ∃ a t, x s = .ok a t

namespace Succeeds

theorem pure (a : α) : Succeeds (pure a : EStateM ε σ α) := fun s => ⟨a, s, rfl⟩

theorem get : Succeeds (get : EStateM ε σ σ) := fun s => ⟨s, s, rfl⟩

theorem set (t : σ) : Succeeds (set t : EStateM ε σ PUnit) := fun _ => ⟨⟨⟩, t, rfl⟩

theorem modify (f : σ → σ) : Succeeds (modify f : EStateM ε σ PUnit) := fun s => ⟨⟨⟩, f s, rfl⟩

theorem bind {x : EStateM ε σ α} {f : α → EStateM ε σ β} (hx : Succeeds x)
    (hf : ∀ a, Succeeds (f a)) : Succeeds (x >>= f) := by
  intro s
  obtain ⟨a, u, hFirst⟩ := hx s
  obtain ⟨b, t, hRest⟩ := hf a u
  exact ⟨b, t, bind_ok_iff.mpr ⟨a, u, hFirst, hRest⟩⟩

end Succeeds

variable {γ : Type} {f : σ → γ}

/-- The state a run ends in, however it ends. -/
def final : EStateM.Result ε σ α → σ
  | .ok _ t => t
  | .error _ t => t

def succeeded : EStateM.Result ε σ α → Bool
  | .ok _ _ => true
  | .error _ _ => false

theorem ok_of_succeeded {x : EStateM ε σ PUnit} {s : σ} (h : succeeded (x s) = true) :
    x s = .ok ⟨⟩ (final (x s)) := by
  cases hRun : x s with
  | ok u t => rfl
  | error e t =>
    rw [hRun] at h
    cases h

theorem final_discard (x : EStateM ε σ α) (s : σ) : final ((discard x) s) = final (x s) := by
  rw [discard_apply]
  cases x s with
  | ok a t => rfl
  | error e t => rfl

/-- From `s` the program keeps the part `f` of the state, even when it fails. -/
def KeepsAt (f : σ → γ) (x : EStateM ε σ α) (s : σ) : Prop := f (final (x s)) = f s

def Keeps (f : σ → γ) (x : EStateM ε σ α) : Prop := ∀ s, KeepsAt f x s

theorem KeepsAt.ok {x : EStateM ε σ α} {s t : σ} {a : α} (h : KeepsAt f x s)
    (hRun : x s = .ok a t) : f t = f s := by
  rwa [KeepsAt, hRun] at h

theorem KeepsAt.get_bind {g : σ → EStateM ε σ β} {s : σ} (h : KeepsAt f (g s) s) :
    KeepsAt f (get >>= g) s := h

namespace Keeps

theorem pure (a : α) : Keeps f (pure a : EStateM ε σ α) := fun _ => rfl

theorem get : Keeps f (get : EStateM ε σ σ) := fun _ => rfl

theorem throw (e : ε) : Keeps f (throw e : EStateM ε σ α) := fun _ => rfl

theorem modify {g : σ → σ} (h : ∀ s, f (g s) = f s) :
    Keeps f (modify g : EStateM ε σ PUnit) := h

theorem final_bind {x : EStateM ε σ α} {g : α → EStateM ε σ β} (hg : ∀ a, Keeps f (g a))
    (s : σ) : f (final ((x >>= g) s)) = f (final (x s)) := by
  rw [bind_apply]
  cases x s with
  | ok a t => exact hg a t
  | error e t => rfl

theorem bind {x : EStateM ε σ α} {g : α → EStateM ε σ β} (hx : Keeps f x)
    (hg : ∀ a, Keeps f (g a)) : Keeps f (x >>= g) :=
  fun s => (final_bind hg s).trans (hx s)

theorem discard {x : EStateM ε σ α} (hx : Keeps f x) : Keeps f (discard x) := by
  intro s
  rw [KeepsAt, final_discard]
  exact hx s

theorem tryCatch {x : EStateM ε σ α} {handle : ε → EStateM ε σ α} (hx : Keeps f x)
    (hHandle : ∀ e, Keeps f (handle e)) : Keeps f (tryCatch x handle) := by
  intro s
  have hKept := hx s
  rw [KeepsAt, tryCatch_apply]
  cases hRun : x s with
  | ok a t => exact hKept.ok hRun
  | error e t =>
    rw [KeepsAt, hRun] at hKept
    exact (hHandle e t).trans hKept

theorem forM {ι : Type} {g : ι → EStateM ε σ PUnit} (hg : ∀ i, Keeps f (g i)) (l : List ι) :
    Keeps f (l.forM g) := by
  induction l with
  | nil => exact .pure _
  | cons i rest ih => exact .bind (hg i) fun _ => ih

end Keeps

theorem KeepsAt.set {s t : σ} (h : f t = f s) :
    KeepsAt f (MonadStateOf.set t : EStateM ε σ PUnit) s := h

theorem KeepsAt.set_bind {s t : σ} {g : PUnit → EStateM ε σ β} (h : f t = f s)
    (hg : Keeps f (g ⟨⟩)) : KeepsAt f (MonadStateOf.set t >>= g) s := (hg t).trans h

/-- A run that succeeds leaves `I` true where it was. -/
def Preserves (I : σ → Prop) (x : EStateM ε σ α) : Prop := ∀ s a t, x s = .ok a t → I s → I t

namespace Preserves

variable {I : σ → Prop}

theorem of_keeps {x : EStateM ε σ α} (h : Keeps f x) (hI : ∀ s t, f t = f s → I s → I t) :
    Preserves I x := fun s _ t hRun hs => hI s t ((h s).ok hRun) hs

theorem pure (a : α) : Preserves I (pure a : EStateM ε σ α) := by
  rintro s _ t ⟨⟩ hs
  exact hs

theorem get : Preserves I (get : EStateM ε σ σ) := by
  rintro s _ t ⟨⟩ hs
  exact hs

theorem modify {g : σ → σ} (h : ∀ s, I s → I (g s)) :
    Preserves I (modify g : EStateM ε σ PUnit) := by
  rintro s _ t ⟨⟩ hs
  exact h s hs

theorem bind {x : EStateM ε σ α} {g : α → EStateM ε σ β} (hx : Preserves I x)
    (hg : ∀ a, Preserves I (g a)) : Preserves I (x >>= g) := by
  intro s b t hRun hs
  obtain ⟨a, u, hFirst, hRest⟩ := bind_ok_iff.mp hRun
  exact hg a u b t hRest (hx s a u hFirst hs)

end Preserves

/-- From `s` a run leaves `I` true where it was, even when it fails. -/
def MaintainsAt (I : σ → Prop) (x : EStateM ε σ α) (s : σ) : Prop := I s → I (final (x s))

def Maintains (I : σ → Prop) (x : EStateM ε σ α) : Prop := ∀ s, MaintainsAt I x s

theorem MaintainsAt.get_bind {I : σ → Prop} {g : σ → EStateM ε σ β} {s : σ}
    (h : MaintainsAt I (g s) s) : MaintainsAt I (get >>= g) s := h

namespace Maintains

variable {I : σ → Prop}

theorem of_keeps {x : EStateM ε σ α} (h : Keeps f x) (hI : ∀ s t, f t = f s → I s → I t) :
    Maintains I x := fun s hs => hI s _ (h s) hs

theorem pure (a : α) : Maintains I (pure a : EStateM ε σ α) := fun _ hs => hs

theorem get : Maintains I (get : EStateM ε σ σ) := fun _ hs => hs

theorem throw (e : ε) : Maintains I (throw e : EStateM ε σ α) := fun _ hs => hs

theorem modify {g : σ → σ} (h : ∀ s, I s → I (g s)) :
    Maintains I (modify g : EStateM ε σ PUnit) := h

theorem bind {x : EStateM ε σ α} {g : α → EStateM ε σ β} (hx : Maintains I x)
    (hg : ∀ a, Maintains I (g a)) : Maintains I (x >>= g) := by
  intro s hs
  have hFirst := hx s hs
  rw [bind_apply]
  cases hRun : x s with
  | ok a t =>
    rw [hRun] at hFirst
    exact hg a t hFirst
  | error e t =>
    rw [hRun] at hFirst
    exact hFirst

theorem discard {x : EStateM ε σ α} (hx : Maintains I x) : Maintains I (discard x) := by
  intro s hs
  rw [final_discard]
  exact hx s hs

end Maintains

theorem MaintainsAt.set {I : σ → Prop} {s t : σ} (h : I s → I t) :
    MaintainsAt I (MonadStateOf.set t : EStateM ε σ PUnit) s := h

theorem MaintainsAt.set_bind {I : σ → Prop} {s t : σ} {g : PUnit → EStateM ε σ β}
    (h : I s → I t) (hg : Maintains I (g ⟨⟩)) : MaintainsAt I (MonadStateOf.set t >>= g) s :=
  fun hs => hg t (h hs)

/-- A run that succeeds meets `Q`, one that fails leaves a state that meets `E`. -/
def Ends (Q : α → σ → Prop) (E : σ → Prop) : EStateM.Result ε σ α → Prop
  | .ok a t => Q a t
  | .error _ t => E t

namespace Ends

variable {Q Q' : α → σ → Prop} {R : β → σ → Prop} {E E' : σ → Prop} {x : EStateM ε σ α}
  {g : α → EStateM ε σ β} {s : σ} {r : EStateM.Result ε σ α}

theorem mono (h : Ends Q E r) (hOk : ∀ a t, Q a t → Q' a t) (hError : ∀ t, E t → E' t) :
    Ends Q' E' r := by
  cases r with
  | ok a t => exact hOk a t h
  | error e t => exact hError t h

theorem bind (h : Ends (fun a t => Ends R E (g a t)) E (x s)) : Ends R E ((x >>= g) s) := by
  rw [bind_apply]
  cases hRun : x s with
  | ok a t =>
    rw [hRun] at h
    exact h
  | error e t =>
    rw [hRun] at h
    exact h

theorem get_bind {g : σ → EStateM ε σ β} (h : Ends R E (g s s)) : Ends R E ((get >>= g) s) := h

theorem discard {P : PUnit → σ → Prop} (h : Ends (fun _ => P ⟨⟩) E (x s)) :
    Ends P E ((discard x) s) := by
  rw [discard_apply]
  cases hRun : x s with
  | ok a t =>
    rw [hRun] at h
    exact h
  | error e t =>
    rw [hRun] at h
    exact h

theorem of_final {P : σ → Prop} (h : P (StateExcept.final r)) : Ends (fun _ => P) P r := by
  cases r with
  | ok a t => exact h
  | error e t => exact h

theorem of_keeps {γ : Type} {f : σ → γ} (h : KeepsAt f x s) :
    Ends (fun _ t => f t = f s) (fun t => f t = f s) (x s) := of_final h

theorem final {P : σ → Prop} (h : Ends (fun _ => P) P r) : P (final r) := by
  cases r with
  | ok a t => exact h
  | error e t => exact h

end Ends

end Dtrun.StateExcept
