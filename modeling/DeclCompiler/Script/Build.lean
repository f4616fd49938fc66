import DeclCompiler.Script.Basic

/-!
Making the values that recipes describe.
-/

namespace DeclCompiler.Script

def Routine.close (registers : Registers) (r : Routine) : MacroFn Closure := .host r.name (.mk r registers)

/-- The object with the given members and handlers, later ones replacing earlier ones. -/
def assemble (registers : Registers) (members : List (String × Value Closure))
    (handlers : List (Handler × Routine)) : Object Closure (Value Closure) :=
  handlers.foldl (fun o h => o.setHandler h.1 (h.2.close registers))
    (members.foldl (fun o m => o.insert m.1 m.2) {})

mutual

def Recipe.build (registers : Registers) (r : Recipe) : ScriptM (Value Closure) :=
  match r with
  | .literal l => newLiteral l
  | .void => newVoid
  | .store name temporary => newStore name temporary
  | .register name =>
    match Entries.get? name registers with
    | some v => return v
    | none => throw (.of (.undefinedIdentifier name))
  | .object members handlers => do
    let ms ← buildMembers registers members
    newObject (assemble registers ms handlers)
  | .array items members handlers => do
    let vs ← buildItems registers items
    let ms ← buildMembers registers members
    newArray vs (assemble registers ms handlers)
  | .getLink => newFunction .getLink
  | .function routine => newFunction (routine.close registers)
termination_by structural r

def buildMembers (registers : Registers) (members : List (String × Recipe)) :
    ScriptM (List (String × Value Closure)) :=
  match members with
  | [] => return []
  | m :: rest => do
    let m' ← buildMember registers m
    return m' :: (← buildMembers registers rest)
termination_by structural members

def buildMember (registers : Registers) (member : String × Recipe) : ScriptM (String × Value Closure) :=
  match member with
  | (key, r) => return (key, ← r.build registers)
termination_by structural member

def buildItems (registers : Registers) (items : List (Option Recipe)) : ScriptM (List (Option (Value Closure))) :=
  match items with
  | [] => return []
  | item :: rest => do
    let item' ← buildItem registers item
    return item' :: (← buildItems registers rest)
termination_by structural items

/-- Makes the value of an optional recipe. -/
def buildItem (registers : Registers) (item : Option Recipe) : ScriptM (Option (Value Closure)) :=
  match item with
  | none => return none
  | some r => return some (← r.build registers)
termination_by structural item

end

/-- Makes values from left to right. -/
def buildAll (registers : Registers) : List Recipe → ScriptM (List (Value Closure))
  | [] => return []
  | r :: rest => do
    let v ← r.build registers
    return v :: (← buildAll registers rest)

end DeclCompiler.Script
