import FrameworkAudit.Proofs.Signature.Delimited

/-!
Loops over a declared count. The reads of lists are loops: what they do for one more item depends on
what was read so far and on nothing else. Each item takes at least a byte, so that a loop completes no
more iterations than there are bytes, whatever count was declared; the first iteration that fails ends
it.
-/

set_option autoImplicit false

namespace FrameworkAudit.Read

variable {α β : Type}

section

variable {read : Read α} {k : α → Read β} {c d : Cursor} {a : α} {n : Nat}

theorem Delimited.advances (h : Delimited n read) (ok : read c = .ok a d) :
    ∃ passed, n ≤ passed ∧ passed ≤ c.remaining ∧ d = c.advance passed := by
  obtain ⟨bytes, enough, next, settled⟩ := h c a d ok
  obtain ⟨-, rfl⟩ := EStateM.Result.ok.inj ((settled.whole c next).symm.trans ok)
  exact ⟨bytes.length, enough, next.length_le_remaining, rfl⟩

theorem Delimited.fails_of_short (h : Delimited n read) (short : c.remaining < n) :
    read.Fails c := by
  cases ok : read c with
  | error e d => exact ⟨e, d, ok⟩
  | ok a d =>
    obtain ⟨passed, enough, inside, -⟩ := h.advances ok
    omega

theorem Fails.bind (failed : read.Fails c) : (read >>= k).Fails c :=
  fails_bind_iff.2 (.inl failed)

theorem Fails.after (ok : read c = .ok a d) (failed : (k a).Fails d) : (read >>= k).Fails c :=
  fails_bind_iff.2 (.inr ⟨a, d, ok, failed⟩)

end

/-- A loop that does its body on what it has gathered, as often as it is told. -/
structure Iterates (loop : Nat → Read α) (start : α) (body : α → Read α) : Prop where
  zero : loop 0 = pure start
  succ : ∀ n, loop (n + 1) = loop n >>= body

/-- How far a loop gets: each of its completed iterations has taken a byte at least, and if they are
fewer than it was told, it ends as the next one fails. -/
def EndsInTime (loop : Nat → Read α) (body : α → Read α) (count : Nat) (c : Cursor) : Prop :=
  ∃ done passed a, done ≤ count ∧ done ≤ passed ∧ passed ≤ c.remaining ∧
    loop done c = .ok a (c.advance passed) ∧
    (done < count → ∃ e d, body a (c.advance passed) = .error e d ∧ loop count c = .error e d)

/-- A loop of which every iteration takes a byte at least, and which so ends in time. -/
structure Paced (loop : Nat → Read α) (start : α) (body : α → Read α) : Prop extends
    Iterates loop start body where
  advances : ∀ a c b d, body a c = .ok b d →
    ∃ passed, 1 ≤ passed ∧ passed ≤ c.remaining ∧ d = c.advance passed
  endsInTime : ∀ count c, EndsInTime loop body count c

namespace Iterates

variable {loop : Nat → Read α} {start : α} {body : α → Read α}

theorem endsInTime (h : Iterates loop start body) (moves : ∀ a, Delimited 1 (body a))
    (count : Nat) (c : Cursor) : EndsInTime loop body count c := by
  induction count with
  | zero =>
    refine ⟨0, 0, start, Nat.le_refl 0, Nat.le_refl 0, Nat.zero_le _, ?_, fun none => ?_⟩
    · rw [h.zero]
      rfl
    · exact absurd none (Nat.lt_irrefl 0)
  | succ count ih =>
    obtain ⟨done, passed, a, le, paid, inside, ok, stops⟩ := ih
    rcases Nat.lt_or_eq_of_le le with fewer | rfl
    · obtain ⟨e, d, failed, whole⟩ := stops fewer
      refine ⟨done, passed, a, by omega, paid, inside, ok, fun _ => ⟨e, d, failed, ?_⟩⟩
      rw [h.succ, bind_apply, whole]
    · have last : loop (done + 1) c = body a (c.advance passed) := by
        rw [h.succ, bind_apply, ok]
      cases step : body a (c.advance passed) with
      | ok b d =>
        obtain ⟨more, one, left, rfl⟩ := (moves a).advances step
        rw [Cursor.advance_advance] at step
        have enough : passed + more ≤ c.remaining := by
          simp only [Cursor.remaining, Cursor.advance] at left inside ⊢
          omega
        exact ⟨done + 1, passed + more, b, Nat.le_refl _, by omega, enough, last.trans step,
          fun fewer => absurd fewer (Nat.lt_irrefl _)⟩
      | error e d =>
        exact ⟨done, passed, a, by omega, paid, inside, ok,
          fun _ => ⟨e, d, step, last.trans step⟩⟩

theorem paced (h : Iterates loop start body) (moves : ∀ a, Delimited 1 (body a)) :
    Paced loop start body :=
  { h with
    advances := fun a _ _ _ ok => (moves a).advances ok
    endsInTime := h.endsInTime moves }

end Iterates

def nextItem (read : Read α) (items : List α) : Read (List α) := return items ++ [← read]

theorem iterates_times (read : Read α) : Iterates (times · read) [] (nextItem read) where
  zero := rfl
  succ n := by
    induction n with
    | zero => simp [times, nextItem]
    | succ n ih =>
      calc times (n + 2) read
        _ = read >>= fun first => times (n + 1) read >>= fun rest => pure (first :: rest) := rfl
        _ = read >>= fun first => (times n read >>= nextItem read) >>= fun rest =>
            pure (first :: rest) := by rw [ih]
        _ = (read >>= fun first => times n read >>= fun rest => pure (first :: rest)) >>=
            nextItem read := by simp [nextItem]

theorem delimited_nextItem {read : Read α} (h : Delimited 1 read) (items : List α) :
    Delimited 1 (nextItem read items) := h.bind fun _ => delimited_pure _

section

variable (type : Read TypeSig)

def nextVararg (rest : List TypeSig) : Read (List TypeSig) := do
  if (← peek) = sentinel then fail .secondSentinel
  return rest ++ [← type]

/-- One parameter more, where a sentinel may stand before the first one that the call adds. -/
def nextParam : List TypeSig × List TypeSig → Read (List TypeSig × List TypeSig)
  | (fixed, []) => do
    if (← peek) = sentinel then
      skip 1
      return (fixed, [← type])
    else return (fixed ++ [← type], [])
  | (fixed, first :: rest) => return (fixed, ← nextVararg type (first :: rest))

theorem nextVararg_cons (first : TypeSig) (rest : List TypeSig) :
    nextVararg type (first :: rest) = (first :: ·) <$> nextVararg type rest := by
  rw [nextVararg, nextVararg, map_bind]
  refine congrArg (peek >>= ·) (funext fun b => ?_)
  split
  · rfl
  · simp

theorem nextParam_cons (first : TypeSig) (parts : List TypeSig × List TypeSig) :
    nextParam type (first :: parts.1, parts.2) =
      (fun parts => (first :: parts.1, parts.2)) <$> nextParam type parts := by
  obtain ⟨fixed, rest⟩ := parts
  cases rest with
  | nil =>
    rw [nextParam, nextParam, map_bind]
    refine congrArg (peek >>= ·) (funext fun b => ?_)
    split <;> simp
  | cons other rest => simp [nextParam]

theorem iterates_varargs : Iterates (varargs type) [] (nextVararg type) where
  zero := rfl
  succ n := by
    induction n with
    | zero => simp [varargs, nextVararg]
    | succ n ih =>
      calc varargs type (n + 2)
        _ = peek >>= fun b => if b = sentinel then fail .secondSentinel else
            type >>= fun first => varargs type (n + 1) >>= fun rest => pure (first :: rest) := rfl
        _ = peek >>= fun b => (if b = sentinel then fail .secondSentinel else
            type >>= fun first => varargs type n >>= fun rest => pure (first :: rest)) >>=
              nextVararg type := by
          rw [ih]
          refine congrArg (peek >>= ·) (funext fun b => ?_)
          split
          · rfl
          · simp [nextVararg_cons]
        _ = varargs type (n + 1) >>= nextVararg type := (bind_assoc _ _ _).symm

theorem iterates_params : Iterates (params type) ([], []) (nextParam type) where
  zero := rfl
  succ n := by
    induction n with
    | zero => simp [params, nextParam, varargs]
    | succ n ih =>
      calc params type (n + 2)
        _ = peek >>= fun b => if b = sentinel then
            skip 1 >>= fun _ => type >>= fun first => varargs type (n + 1) >>= fun rest =>
              pure ([], first :: rest)
          else type >>= fun first => params type (n + 1) >>= fun parts =>
            pure (first :: parts.1, parts.2) := rfl
        _ = peek >>= fun b => (if b = sentinel then
            skip 1 >>= fun _ => type >>= fun first => varargs type n >>= fun rest =>
              pure ([], first :: rest)
          else type >>= fun first => params type n >>= fun parts =>
            pure (first :: parts.1, parts.2)) >>= nextParam type := by
          rw [ih, (iterates_varargs type).succ]
          refine congrArg (peek >>= ·) (funext fun b => ?_)
          split
          · simp [nextParam, nextVararg_cons]
          · simp [nextParam_cons]
        _ = params type (n + 1) >>= nextParam type := (bind_assoc _ _ _).symm

variable {type}

theorem delimited_nextParam (h : Delimited 1 type) (parts : List TypeSig × List TypeSig) :
    Delimited 1 (nextParam type parts) := by
  match parts with
  | (fixed, []) =>
    refine delimited_peek fun next => .ite ?_ (h.bind fun first => delimited_pure _)
    exact ((delimited_skip 1).bind fun _ => h.bind fun first => delimited_pure _).mono (by omega)
  | (fixed, first :: rest) =>
    have further : Delimited 1 (nextVararg type (first :: rest)) :=
      delimited_peek fun next => .check (h.bind fun last => delimited_pure _)
    exact further.bind fun rest => delimited_pure _

end

end FrameworkAudit.Read
