/-!
Sorted lists without repetition, as sets and as maps. Of two equal elements the one inserted first
stays, and so does the first of two equal keys.
-/

set_option autoImplicit false

namespace FrameworkAudit.Sorted

variable {α κ β : Type}

def insert (cmp : α → α → Ordering) (x : α) : List α → List α
  | [] => [x]
  | y :: ys =>
    match cmp x y with
    | .lt => x :: y :: ys
    | .eq => y :: ys
    | .gt => y :: insert cmp x ys

def insertAll (cmp : α → α → Ordering) (xs set : List α) : List α :=
  xs.foldl (fun acc x => insert cmp x acc) set

def ofList (cmp : α → α → Ordering) (xs : List α) : List α := insertAll cmp xs []

def alter (cmp : κ → κ → Ordering) (key : κ) (fresh : β) (change : β → β) :
    List (κ × β) → List (κ × β)
  | [] => [(key, change fresh)]
  | entry :: rest =>
    match cmp key entry.1 with
    | .lt => (key, change fresh) :: entry :: rest
    | .eq => (entry.1, change entry.2) :: rest
    | .gt => entry :: alter cmp key fresh change rest

def find? (cmp : κ → κ → Ordering) (key : κ) (map : List (κ × β)) : Option β :=
  (map.find? fun entry => cmp key entry.1 == .eq).map Prod.snd

def sort (cmp : α → α → Ordering) (xs : List α) : List α :=
  xs.mergeSort fun a b => (cmp a b).isLE

end FrameworkAudit.Sorted
