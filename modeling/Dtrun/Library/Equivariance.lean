import Dtrun.Library.StateExcept

/-! # Programs that commute with a change of state

`f` changes the states and `g` the results. A program and its image commute with them when running
the image from a changed state gives the changed outcome of the program, errors included. The rules
follow the text of a program, so a proof about a long one is a walk along its binds.
-/
namespace Dtrun.Equivariance
set_option autoImplicit false
open StateExcept

variable {ε σ σ' α α' β β' : Type}

def changeResult (f : σ → σ') (g : α → α') :
    EStateM.Result ε σ α → EStateM.Result ε σ' α'
  | .ok a t => .ok (g a) (f t)
  | .error e t => .error e (f t)

def CommutesAt (f : σ → σ') (g : α → α') (x : EStateM ε σ α) (x' : EStateM ε σ' α') (s : σ) :
    Prop := x' (f s) = changeResult f g (x s)

def Commutes (f : σ → σ') (g : α → α') (x : EStateM ε σ α) (x' : EStateM ε σ' α') : Prop :=
  ∀ s, CommutesAt f g x x' s

variable {f : σ → σ'} {g : α → α'} {h : β → β'} {x : EStateM ε σ α} {x' : EStateM ε σ' α'}
  {y : α → EStateM ε σ β} {y' : α' → EStateM ε σ' β'} {s : σ}

namespace CommutesAt

theorem pure (a : α) : CommutesAt f g (pure a : EStateM ε σ α) (Pure.pure (g a)) s := rfl

theorem throw (e : ε) :
    CommutesAt f g (throw e : EStateM ε σ α) (MonadExcept.throw e) s := rfl

theorem modify {m : σ → σ} {m' : σ' → σ'} (hm : m' (f s) = f (m s)) :
    CommutesAt f id (modify m : EStateM ε σ PUnit) (modify m') s := by
  change EStateM.Result.ok PUnit.unit (m' (f s)) = .ok PUnit.unit (f (m s))
  rw [hm]

theorem bind (hx : CommutesAt f g x x' s)
    (hy : ∀ a t, x s = .ok a t → CommutesAt f h (y a) (y' (g a)) t) :
    CommutesAt f h (x >>= y) (x' >>= y') s := by
  rw [CommutesAt, bind_apply, bind_apply, hx]
  cases hRun : x s with
  | ok a t => exact hy a t hRun
  | error e t => rfl

theorem get_bind {z : σ → EStateM ε σ β} {z' : σ' → EStateM ε σ' β'}
    (hz : CommutesAt f h (z s) (z' (f s)) s) : CommutesAt f h (get >>= z) (get >>= z') s := hz

theorem set {t : σ} {t' : σ'} (ht : t' = f t) :
    CommutesAt f id (set t : EStateM ε σ PUnit) (MonadStateOf.set t') s := by
  rw [ht]
  rfl

theorem set_bind {t : σ} {t' : σ'} {z : PUnit → EStateM ε σ β} {z' : PUnit → EStateM ε σ' β'}
    (ht : t' = f t) (hz : CommutesAt f h (z ⟨⟩) (z' ⟨⟩) t) :
    CommutesAt f h (MonadStateOf.set t >>= z) (MonadStateOf.set t' >>= z') s := by
  rw [ht]
  exact hz

end CommutesAt

namespace Commutes

theorem pure (a : α) : Commutes f g (pure a : EStateM ε σ α) (Pure.pure (g a)) :=
  fun _ => .pure a

theorem throw (e : ε) : Commutes f g (throw e : EStateM ε σ α) (MonadExcept.throw e) :=
  fun _ => .throw e

theorem modify {m : σ → σ} {m' : σ' → σ'} (hm : ∀ s, m' (f s) = f (m s)) :
    Commutes f id (modify m : EStateM ε σ PUnit) (modify m') := fun s => .modify (hm s)

theorem bind (hx : Commutes f g x x') (hy : ∀ a, Commutes f h (y a) (y' (g a))) :
    Commutes f h (x >>= y) (x' >>= y') :=
  fun s => (hx s).bind fun a t _ => hy a t

theorem get_bind {z : σ → EStateM ε σ β} {z' : σ' → EStateM ε σ' β'}
    (hz : ∀ s, CommutesAt f h (z s) (z' (f s)) s) : Commutes f h (get >>= z) (get >>= z') := hz

theorem discard (hx : Commutes f g x x') : Commutes f id (discard x) (discard x') := by
  intro s
  rw [CommutesAt, discard_apply, discard_apply, hx s]
  cases x s with
  | ok a t => rfl
  | error e t => rfl

end Commutes

end Dtrun.Equivariance
