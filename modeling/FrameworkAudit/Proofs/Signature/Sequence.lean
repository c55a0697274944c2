import FrameworkAudit.Proofs.Signature.Compositional
import FrameworkAudit.Proofs.Signature.Written

/-!
Signatures read one after the other. What a read makes of the bytes ahead does not depend on where
they stand, so a reader that starts anew on the bytes that are left does the same, except for the
levels: every signature that was refused for its depth leaves one level less to the next ones. Where
fewer levels are left, a read goes the same way until it lacks one, and there the read that has it
goes on.
-/

set_option autoImplicit false

namespace FrameworkAudit

variable {α β : Type}

structure Cursor.SameAhead (c d : Cursor) : Prop where
  remaining : c.remaining = d.remaining
  bytes : ∀ i : Nat, c.data[c.pos + i]? = d.data[d.pos + i]?

namespace Cursor

variable {c d : Cursor}

theorem SameAhead.refl (c : Cursor) : c.SameAhead c := ⟨rfl, fun _ => rfl⟩

theorem SameAhead.advance (h : c.SameAhead d) (n : Nat) : (c.advance n).SameAhead (d.advance n) where
  remaining := by
    have := h.remaining
    simp only [Cursor.remaining, Cursor.advance] at this ⊢
    omega
  bytes i := by
    have := h.bytes (n + i)
    simpa only [Cursor.advance, Nat.add_assoc] using this

def rest (c : Cursor) : ByteArray := c.data.extract c.pos c.data.size

theorem sameAhead_rest (c : Cursor) : c.SameAhead (ofBytes c.rest) where
  remaining := by
    simp [Cursor.remaining, ofBytes, rest]
  bytes i := by
    have size : c.rest.size = c.data.size - c.pos := by simp [rest]
    rw [ofBytes, Nat.zero_add]
    by_cases inside : c.pos + i < c.data.size
    · rw [getElem?_pos c.data _ inside, getElem?_pos c.rest i (by omega)]
      exact congrArg some (ByteArray.getElem_extract _).symm
    · rw [getElem?_neg c.data _ (by omega), getElem?_neg c.rest i (by omega)]

end Cursor

namespace Read

variable {deep : Prop} {c d : Cursor} {n : Nat}

/-- The results of two reads, of which the second may have more levels left if `deep` is true: they
are alike, or the first was refused for its depth and the second went on from there. -/
inductive Alike (deep : Prop) (c d : Cursor) :
    EStateM.Result Error Cursor α → EStateM.Result Error Cursor α → Prop where
  | ok (a : α) (n : Nat) : Alike deep c d (.ok a (c.advance n)) (.ok a (d.advance n))
  | error (e : Error) (n : Nat) (h : deep → e ≠ .recursionLimit maxTypeDepth) :
      Alike deep c d (.error e (c.advance n)) (.error e (d.advance n))
  | passed (a : α) (m n : Nat) (h : deep) (more : m < n) :
      Alike deep c d (.error (.recursionLimit maxTypeDepth) (c.advance m)) (.ok a (d.advance n))
  | failed (e : Error) (m n : Nat) (h : deep) (more : m ≤ n)
      (other : m = n → e ≠ .recursionLimit maxTypeDepth) :
      Alike deep c d (.error (.recursionLimit maxTypeDepth) (c.advance m)) (.error e (d.advance n))

theorem Alike.of_advance {x y : EStateM.Result Error Cursor α}
    (h : Alike deep (c.advance n) (d.advance n) x y) : Alike deep c d x y := by
  cases h <;> rw [Cursor.advance_advance, Cursor.advance_advance]
  case ok a i => exact .ok a _
  case error e i other => exact .error e _ other
  case passed a i j h more => exact .passed a _ _ h (by omega)
  case failed e i j h more other => exact .failed e _ _ h (by omega) fun same => other (by omega)

theorem Alike.moves {x y : EStateM.Result Error Cursor α} (h : Alike deep c d x y) :
    (∃ a n, y = .ok a (d.advance n)) ∨ ∃ e n, y = .error e (d.advance n) := by
  cases h with
  | ok a n | passed a m n h more => exact .inl ⟨a, n, rfl⟩
  | error e n h | failed e m n h more other => exact .inr ⟨e, n, rfl⟩

def Follows (deep : Prop) (read other : Read α) : Prop :=
  ∀ c d : Cursor, c.SameAhead d → Alike deep c d (read c) (other d)

theorem follows_pure (a : α) : Follows deep (pure a) (pure a) := fun _ _ _ => .ok a 0

theorem follows_throw {e : Error} (h : deep → e ≠ .recursionLimit maxTypeDepth) :
    Follows deep (throw e : Read α) (throw e) := fun _ _ _ => .error e 0 h

theorem follows_fail (defect : Defect) : Follows deep (fail defect : Read α) (fail defect) :=
  follows_throw fun _ => Error.noConfusion

theorem Follows.bind {read other : Read α} {k l : α → Read β} (h : Follows deep read other)
    (hk : ∀ a, Follows deep (k a) (l a)) : Follows deep (read >>= k) (other >>= l) := by
  intro c d same
  rw [bind_apply, bind_apply]
  have first := h c d same
  generalize read c = x, other d = y at first
  cases first with
  | ok a n => exact (hk a _ _ (same.advance n)).of_advance
  | error e n ne => exact .error e n ne
  | passed a m n h more =>
    -- The second read is ahead, and what follows it only moves on.
    obtain ⟨b, i, moved⟩ | ⟨e, i, moved⟩ := (hk a _ _ (.refl (d.advance n))).moves
    · simp only [moved, Cursor.advance_advance]
      exact .passed b m _ h (by omega)
    · simp only [moved, Cursor.advance_advance]
      exact .failed e m _ h (by omega) fun same => absurd same (by omega)
  | failed e m n h more ne => exact .failed e m n h more ne

theorem follows_peek : Follows deep peek peek := by
  intro c d same
  have here := same.bytes 0
  simp only [Nat.add_zero] at here
  unfold peek
  rw [here]
  cases d.data[d.pos]? with
  | none => exact .error .outOfBounds 0 fun _ => Error.noConfusion
  | some b => exact .ok b 0

theorem follows_skip (count : Nat) : Follows deep (skip count) (skip count) := by
  intro c d same
  unfold skip
  rw [same.remaining]
  split
  · exact .ok () count
  · exact .error .outOfBounds 0 fun _ => Error.noConfusion

theorem follows_bytes (count : Nat) : Follows deep (bytes count) (bytes count) := by
  intro c d same
  unfold bytes
  rw [same.remaining]
  split
  · rename_i enough
    have left := same.remaining
    unfold Cursor.remaining at enough left
    have equal : c.data.extract c.pos (c.pos + count) = d.data.extract d.pos (d.pos + count) := by
      apply ByteArray.ext_getElem
      · rw [ByteArray.size_extract, ByteArray.size_extract]
        omega
      · intro i hi hj
        rw [ByteArray.size_extract] at hi hj
        have here := same.bytes i
        rw [getElem?_pos c.data _ (by omega), getElem?_pos d.data _ (by omega)] at here
        rw [ByteArray.getElem_extract, ByteArray.getElem_extract]
        exact Option.some.inj here
    rw [equal]
    exact .ok _ count
  · exact .error .outOfBounds 0 fun _ => Error.noConfusion

theorem follows_word : Follows deep (word 1) (word 1) := by
  intro c d same
  have left := same.remaining
  have here := same.bytes 0
  unfold Cursor.remaining at left
  simp only [Nat.add_zero] at here
  unfold word Bytes.word
  by_cases inside : c.pos + 1 ≤ c.data.size
  · rw [if_pos inside, if_pos (by omega), Bytes.littleEndian, Bytes.littleEndian, here]
    exact .ok _ 1
  · rw [if_neg inside, if_neg (by omega)]
    exact .error .outOfBounds 0 fun _ => Error.noConfusion

theorem follows_compressedInt (h : Follows deep compressedNat compressedNat) :
    Follows deep compressedInt compressedInt := by
  intro c d same
  have number : Alike deep c d (compressedNat c) (compressedNat d) := h c d same
  simp only [compressedInt, bind_apply, position]
  generalize compressedNat c = x, compressedNat d = y at number
  cases number with
  | ok value n =>
    have width (c : Cursor) : (c.advance n).pos - c.pos = n := Nat.add_sub_cancel_left _ _
    simp only [width]
    split <;> exact .ok _ n
  | error e n h => exact .error e n h
  | passed value m n h more =>
    dsimp only
    split <;> exact .passed _ m n h more
  | failed e m n h more other => exact .failed e m n h more other

theorem compositional_follows : Compositional fun _ => Follows deep where
  pure := follows_pure
  fail := follows_fail
  peek := follows_peek
  skip := follows_skip
  word := follows_word
  bytes := follows_bytes
  signed := follows_compressedInt
  bind := Follows.bind

theorem follows_type (room : Nat) : Follows False (type room) (type room) :=
  compositional_follows.type (follows_throw False.elim) room

/-- Where no level is left, any other read of a type moves on, or finds no byte to do so. -/
theorem follows_type_zero (more : Nat) : Follows True (type 0) (type (more + 1)) := by
  intro c d same
  rw [type_succ, bind_apply]
  cases byte : word 1 d with
  | ok code after =>
    obtain ⟨-, -, rfl⟩ := word_ok_iff.1 byte
    show Alike True c d _ (typeFrom (type more) code (d.advance 1))
    obtain ⟨sig, n, moved⟩ | ⟨e, n, moved⟩ :=
      (compositional_follows.typeFrom (follows_type more) code _ _ (.refl (d.advance 1))).moves
    · rw [moved, Cursor.advance_advance]
      exact .passed sig 0 (1 + n) trivial (by omega)
    · rw [moved, Cursor.advance_advance]
      exact .failed e 0 (1 + n) trivial (by omega) fun same => absurd same (by omega)
  | error e after =>
    obtain ⟨rfl, rfl⟩ := word_error byte
    exact .failed .outOfBounds 0 0 trivial (Nat.le_refl 0) fun _ => Error.noConfusion

theorem follows_type_of_lt {m n : Nat} (h : m < n) : Follows True (type m) (type n) := by
  induction m generalizing n with
  | zero =>
    cases n with
    | zero => exact absurd h (Nat.lt_irrefl 0)
    | succ n => exact follows_type_zero n
  | succ m ih =>
    cases n with
    | zero => exact absurd h (Nat.not_lt_zero _)
    | succ n =>
      exact follows_word.bind (compositional_follows.typeFrom (ih (by omega)))

/-- Each form is read alike with as many levels, and with more of them until one is lacking. -/
theorem Follows.form {m n : Nat} (h : Follows deep (type m) (type n)) (form : SignatureForm) :
    Follows deep (form.read m) (form.read n) := by
  cases form with
  | type => exact h.bind fun sig => follows_pure _
  | field => exact (compositional_follows.field h).bind fun sig => follows_pure _
  | method => exact (compositional_follows.method h).bind fun m => follows_pure _
  | member => exact (compositional_follows.member h).bind fun sig => follows_pure _

end Read

def tooDeep (answer : Except Error α) : Bool :=
  match answer with
  | .ok _ => false
  | .error e => e = .recursionLimit maxTypeDepth

namespace SignatureReader

def run (r : SignatureReader) : List SignatureForm → List (Except Error Signature) × SignatureReader
  | [] => ([], r)
  | form :: forms =>
    let (answer, after) := r.next form.read
    let (answers, last) := after.run forms
    (answer :: answers, last)

theorem next_depth (r : SignatureReader) (form : SignatureForm) :
    (r.next form.read).2.depth = r.depth + if tooDeep (r.next form.read).1 then 1 else 0 := by
  unfold next
  cases form.read r.room r.cursor with
  | ok s c => rfl
  | error e c => by_cases h : e = .recursionLimit maxTypeDepth <;> simp [tooDeep, h]

theorem next_data (r : SignatureReader) (form : SignatureForm) :
    (r.next form.read).2.cursor.data = r.cursor.data := by
  have moves := ((Read.follows_type r.room).form form _ _ (.refl r.cursor)).moves
  unfold next
  obtain ⟨s, n, moved⟩ | ⟨e, n, moved⟩ := moves <;> rw [moved] <;> rfl

/-- Each refusal for the depth leaves one level open. -/
theorem run_depth (r : SignatureReader) (forms : List SignatureForm) :
    (r.run forms).2.depth = r.depth + (r.run forms).1.countP tooDeep := by
  induction forms generalizing r with
  | nil => rfl
  | cons form forms ih =>
    simp only [run, ih, next_depth, List.countP_cons]
    omega

theorem run_data (r : SignatureReader) (forms : List SignatureForm) :
    (r.run forms).2.cursor.data = r.cursor.data := by
  induction forms generalizing r with
  | nil => rfl
  | cons form forms ih => simp only [run, ih, next_data]

theorem follows_form (r : SignatureReader) (form : SignatureForm) :
    Read.Follows (0 < r.depth) (form.read r.room) (form.read (maxTypeDepth - 1)) := by
  rcases Nat.eq_zero_or_pos r.depth with closed | opened
  · have full : r.room = maxTypeDepth - 1 := by rw [room, closed, Nat.sub_zero]
    rw [full, closed]
    simpa using (Read.follows_type (maxTypeDepth - 1)).form form
  · have fewer : r.room < maxTypeDepth - 1 := by
      unfold room maxTypeDepth
      omega
    simpa [opened] using (Read.follows_type_of_lt fewer).form form

/-- A reader does what a new one does on the bytes that are left, unless it has levels open and
refuses the signature for its depth. -/
theorem next_eq_rest_iff (r : SignatureReader) (form : SignatureForm) :
    ((r.next form.read).1 = ((ofBytes r.cursor.rest).next form.read).1 ∧
      (r.next form.read).2.cursor.pos =
        r.cursor.pos + ((ofBytes r.cursor.rest).next form.read).2.cursor.pos) ↔
      r.depth = 0 ∨ tooDeep (r.next form.read).1 = false := by
  have alike := follows_form r form _ _ r.cursor.sameAhead_rest
  have start : (Cursor.ofBytes r.cursor.rest).pos = 0 := rfl
  have room : (ofBytes r.cursor.rest).room = maxTypeDepth - 1 := rfl
  have cursor : (ofBytes r.cursor.rest).cursor = .ofBytes r.cursor.rest := rfl
  unfold next
  rw [room, cursor]
  generalize form.read r.room r.cursor = x, form.read _ (Cursor.ofBytes r.cursor.rest) = y at alike
  cases alike with
  | ok s n => simp [tooDeep, Cursor.advance, start]
  | error e n h =>
    have other := (Nat.eq_zero_or_pos r.depth).imp_right h
    simpa [tooDeep, Cursor.advance, start] using other
  | passed s m n h more =>
    have opened : ¬ r.depth = 0 := by omega
    simpa [tooDeep] using opened
  | failed e m n h more other =>
    have opened : ¬ r.depth = 0 := by omega
    have differ : ¬ (Error.recursionLimit maxTypeDepth = e ∧ m = n) :=
      fun both => other both.2 both.1.symm
    simpa [tooDeep, Cursor.advance, start, opened] using differ

/-- After any sequence of calls, a call does what it does on a new reader over the bytes that are
left, with the same answer and as many bytes, exactly if no call before was refused for its depth or
this one is not. The levels that stay open are as many as the calls that were so refused. -/
theorem next_as_fresh_iff (data : ByteArray) (calls : List SignatureForm) (form : SignatureForm) :
    let (answers, r) := (ofBytes data).run calls
    let (answer, after) := r.next form.read
    let (fresh, stop) := (ofBytes (data.extract r.cursor.pos data.size)).next form.read
    ((answer = fresh ∧ after.cursor.pos = r.cursor.pos + stop.cursor.pos) ↔
        (∀ a ∈ answers, tooDeep a = false) ∨ tooDeep answer = false) ∧
      r.depth = answers.countP tooDeep ∧
      after.depth = (answers ++ [answer]).countP tooDeep := by
  have depth := run_depth (ofBytes data) calls
  have whole := run_data (ofBytes data) calls
  have start : (ofBytes data).depth = 0 := rfl
  rw [start, Nat.zero_add] at depth
  have rest : data.extract ((ofBytes data).run calls).2.cursor.pos data.size =
      ((ofBytes data).run calls).2.cursor.rest := by
    rw [Cursor.rest, whole]
    rfl
  simp only [rest]
  refine ⟨?_, depth, ?_⟩
  · rw [next_eq_rest_iff, depth, List.countP_eq_zero]
    simp only [Bool.not_eq_true]
  · rw [next_depth, depth, List.countP_append, List.countP_singleton]

/-- Of 97 pointers, the first call refuses the fiftieth. In the 48 that are left there is room for the
type behind them, but not for the second call. -/
theorem next_after_refusal :
    let data : ByteArray := ⟨(List.replicate 97 (0x0F : UInt8) ++ [0x08]).toArray⟩
    let before := (ofBytes data).run [.type]
    before.1.map tooDeep = [true] ∧ before.2.cursor.pos = 49 ∧ before.2.depth = 1 ∧
      tooDeep (before.2.next SignatureForm.type.read).1 = true ∧
      ((ofBytes (data.extract 49 98)).next SignatureForm.type.read).1.isOk = true := by
  decide +kernel

end SignatureReader

end FrameworkAudit
