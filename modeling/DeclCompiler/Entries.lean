/-!
Lists of keys and values in the order in which the keys were first entered. Entering a key again
replaces its value and keeps its place.
-/

namespace DeclCompiler.Entries

variable {α β : Type} [DecidableEq α]

def get? (k : α) : List (α × β) → Option β
  | [] => none
  | (k', v) :: rest => if k = k' then some v else get? k rest

def put (k : α) (v : β) : List (α × β) → List (α × β)
  | [] => [(k, v)]
  | (k', v') :: rest => if k = k' then (k, v) :: rest else (k', v') :: put k v rest

/-- Enters a key, and also gives back the value that is replaced. -/
def exchange (k : α) (v : β) : List (α × β) → Option β × List (α × β)
  | [] => (none, [(k, v)])
  | (k', v') :: rest =>
    if k = k' then (some v', (k, v) :: rest)
    else
      let r := exchange k v rest
      (r.1, (k', v') :: r.2)

/-- Enters the given pairs one after another. -/
def putAll (pairs : List (α × β)) (entries : List (α × β)) : List (α × β) :=
  pairs.foldl (fun acc p => put p.1 p.2 acc) entries

@[simp] theorem get?_nil (k : α) : get? k ([] : List (α × β)) = none := rfl

theorem get?_put (k k' : α) (v : β) (entries : List (α × β)) :
    get? k' (put k v entries) = if k' = k then some v else get? k' entries := by
  induction entries with
  | nil => simp [put, get?]
  | cons e rest ih => grind [put, get?]

/-- A key that is entered for the first time comes last. -/
theorem keys_put (k : α) (v : β) (entries : List (α × β)) :
    (put k v entries).map Prod.fst =
      if k ∈ entries.map Prod.fst then entries.map Prod.fst else entries.map Prod.fst ++ [k] := by
  induction entries with
  | nil => simp [put]
  | cons e rest ih => grind [put]

theorem get?_eq_none_iff (k : α) (entries : List (α × β)) :
    get? k entries = none ↔ k ∉ entries.map Prod.fst := by
  induction entries with
  | nil => simp
  | cons e rest ih => grind [get?]

end DeclCompiler.Entries
