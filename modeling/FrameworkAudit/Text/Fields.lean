set_option autoImplicit false

namespace FrameworkAudit.Text

/-- The fields between separators; a text without a separator is one field. -/
def fieldChars (sep : Char) : List Char → List (List Char)
  | [] => [[]]
  | c :: cs =>
    if c = sep then [] :: fieldChars sep cs
    else
      match fieldChars sep cs with
      | [] => [[c]]
      | field :: rest => (c :: field) :: rest

def fields (sep : Char) (s : String) : List String :=
  (fieldChars sep s.toList).map String.ofList

def cutChars (sep : Char) : List Char → Option (List Char × List Char)
  | [] => none
  | c :: cs =>
    if c = sep then some ([], cs)
    else (cutChars sep cs).map fun halves => (c :: halves.1, halves.2)

def cut (sep : Char) (s : String) : Option (String × String) :=
  (cutChars sep s.toList).map fun halves => (String.ofList halves.1, String.ofList halves.2)

def cutLast (sep : Char) (s : String) : Option (String × String) :=
  (cutChars sep s.toList.reverse).map fun halves =>
    (String.ofList halves.2.reverse, String.ofList halves.1.reverse)

theorem fieldChars_ne_nil (sep : Char) (cs : List Char) : fieldChars sep cs ≠ [] := by
  cases cs with
  | nil => simp [fieldChars]
  | cons c cs =>
    rw [fieldChars]
    split
    · simp
    · split <;> simp

theorem cutChars_append {sep : Char} {cs rest : List Char} (h : sep ∉ cs) :
    cutChars sep (cs ++ sep :: rest) = some (cs, rest) := by
  induction cs with
  | nil => simp [cutChars]
  | cons c cs ih =>
    have hc : c ≠ sep := fun e => h (e ▸ List.mem_cons_self)
    simp [cutChars, hc, ih (fun m => h (List.mem_cons_of_mem _ m))]

theorem cutChars_eq_none_iff {sep : Char} {cs : List Char} :
    cutChars sep cs = none ↔ sep ∉ cs := by
  induction cs with
  | nil => simp [cutChars]
  | cons c cs ih =>
    by_cases hc : c = sep
    · simp [cutChars, hc]
    · simp [cutChars, hc, ih, Ne.symm hc]

end FrameworkAudit.Text
