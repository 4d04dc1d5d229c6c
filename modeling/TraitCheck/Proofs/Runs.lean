/-!
Runs of steps that keep a state and may fail. `x.run.run s` is the result of
`x` in the state `s`, together with the state it leaves, also after a failure.
-/

namespace TraitCheck.Runs

variable {ε σ α β : Type}

theorem run_get_bind (f : σ → ExceptT ε (StateM σ) α) (s : σ) :
    (get >>= f).run.run s = (f s).run.run s := rfl

theorem run_bind (x : ExceptT ε (StateM σ) α) (f : α → ExceptT ε (StateM σ) β) (s : σ) :
    (x >>= f).run.run s =
      match x.run.run s with
      | (.ok a, s') => (f a).run.run s'
      | (.error e, s') => (.error e, s') := by
  change (match x s with
    | (r, s') => (ExceptT.bindCont f r).run s') = _
  change _ = (match x s with
    | (.ok a, s') => (f a).run.run s'
    | (.error e, s') => (.error e, s'))
  cases x s with
  | mk r s' => cases r <;> rfl

end TraitCheck.Runs
