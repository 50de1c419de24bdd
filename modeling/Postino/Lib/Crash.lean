/-!
# Procedures cut anywhere

A procedure is a list of operations done one after another, each of them at once.
It may be cut before or after any of them. `Continues` says that an invariant
holds wherever it is cut, and what holds once it is through.
-/

namespace Lib

variable {State Op : Type} {run : State → Op → State} {Inv Mid Final : State → Prop}
  {ops : List Op} {s : State}

/-- `Inv` holds after each of `ops`, run from a state, and `Final` at the end. -/
def Continues (run : State → Op → State) (Inv Final : State → Prop) : List Op → State → Prop
  | [], s => Final s
  | op :: ops, s => Inv (run s op) ∧ Continues run Inv Final ops (run s op)

theorem Continues.append {more : List Op} (h : Continues run Inv Mid ops s)
    (hMore : ∀ s, Mid s → Continues run Inv Final more s) :
    Continues run Inv Final (ops ++ more) s := by
  induction ops generalizing s with
  | nil => exact hMore s h
  | cons op ops ih => exact ⟨h.1, ih h.2⟩

/-- Operations that each keep the invariant. -/
theorem continues_of_forall (hOps : ∀ op ∈ ops, ∀ s, Inv s → Inv (run s op)) (h : Inv s) :
    Continues run Inv Inv ops s := by
  induction ops generalizing s with
  | nil => exact h
  | cons op ops ih =>
    obtain ⟨hHead, hTail⟩ := List.forall_mem_cons.mp hOps
    exact ⟨hHead s h, ih hTail (hHead s h)⟩

theorem Continues.mono {Inv' Final' : State → Prop} (h : Continues run Inv Final ops s)
    (hInv : ∀ s, Inv s → Inv' s) (hFinal : ∀ s, Final s → Final' s) :
    Continues run Inv' Final' ops s := by
  induction ops generalizing s with
  | nil => exact hFinal s h
  | cons op ops ih => exact ⟨hInv _ h.1, ih h.2⟩

end Lib
