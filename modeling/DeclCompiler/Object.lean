import DeclCompiler.Entries
import DeclCompiler.Handler

/-!
Objects: members in the order of their first insertion, and functions that take over operations.
The values of the members are left open here.
-/

namespace DeclCompiler

/-- A function that runs while compiling. All but the built-in one are code of the host. -/
inductive MacroFn (κ : Type)
  | getLink
  | host (name : String) (code : κ)

def MacroFn.name {κ : Type} : MacroFn κ → String
  | .getLink => "getLink"
  | .host name _ => name

structure Object (κ ν : Type) where
  members : List (String × ν) := []
  handlers : List (Handler × MacroFn κ) := []

namespace Object

variable {κ ν : Type}

def keys (o : Object κ ν) : List String := o.members.map Prod.fst

def size (o : Object κ ν) : Nat := o.members.length

def get? (o : Object κ ν) (key : String) : Option ν := Entries.get? key o.members

def handler? (o : Object κ ν) (h : Handler) : Option (MacroFn κ) := Entries.get? h o.handlers

def insert (o : Object κ ν) (key : String) (v : ν) : Object κ ν :=
  { o with members := Entries.put key v o.members }

/-- Inserts a member, and also gives back the one that it replaces. -/
def exchange (o : Object κ ν) (key : String) (v : ν) : Option ν × Object κ ν :=
  let r := Entries.exchange key v o.members
  (r.1, { o with members := r.2 })

def setHandler (o : Object κ ν) (h : Handler) (f : MacroFn κ) : Object κ ν :=
  { o with handlers := Entries.put h f o.handlers }

/-- Inserts the items that are present under their positions, counted from `i`. -/
def insertItems (o : Object κ ν) (i : Nat) : List (Option ν) → Object κ ν
  | [] => o
  | none :: items => o.insertItems (i + 1) items
  | some v :: items => (o.insert i.repr v).insertItems (i + 1) items

/-- An array is an object with a length and with members at the positions of its items. -/
def ofItems (length : ν) (items : List (Option ν)) (extra : Object κ ν) : Object κ ν :=
  (extra.insert "length" length).insertItems 0 items

/-! ### Members and handlers after an insertion -/

theorem get?_insert (o : Object κ ν) (key key' : String) (v : ν) :
    (o.insert key v).get? key' = if key' = key then some v else o.get? key' := Entries.get?_put ..

theorem keys_insert (o : Object κ ν) (key : String) (v : ν) :
    (o.insert key v).keys = if key ∈ o.keys then o.keys else o.keys ++ [key] := Entries.keys_put ..

@[simp] theorem handler?_insert (o : Object κ ν) (key : String) (v : ν) (h : Handler) :
    (o.insert key v).handler? h = o.handler? h := rfl

theorem handler?_setHandler (o : Object κ ν) (h h' : Handler) (f : MacroFn κ) :
    (o.setHandler h f).handler? h' = if h' = h then some f else o.handler? h' := Entries.get?_put ..

@[simp] theorem get?_setHandler (o : Object κ ν) (h : Handler) (f : MacroFn κ) (key : String) :
    (o.setHandler h f).get? key = o.get? key := rfl

end Object

end DeclCompiler
