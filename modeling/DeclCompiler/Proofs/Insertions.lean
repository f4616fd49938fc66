import DeclCompiler.Proofs.ExactIntegers
import DeclCompiler.State

/-!
Objects by what was put into them. However an object was built, its members are those of one list of insertions, and
its handlers those of one list of attachments: keys stand in the order of their first insertion, and the last insertion
under a key decides its member. An array inserts its length and then its items, on top of what is there already. An
index of the members and a separate list of their keys give the same objects, since every operation keeps the two in
step.
-/

namespace DeclCompiler

/-! ### Entering many pairs -/

namespace Entries

variable {α β : Type} [DecidableEq α]

/-- Exchanging a value looks it up and enters the new one. -/
theorem exchange_eq (k : α) (v : β) (entries : List (α × β)) :
    exchange k v entries = (get? k entries, put k v entries) := by
  induction entries with
  | nil => rfl
  | cons e rest ih =>
    simp only [exchange, get?, put, ih]
    split <;> rfl

theorem isSome_get?_iff (k : α) (entries : List (α × β)) :
    (get? k entries).isSome = true ↔ k ∈ entries.map Prod.fst := by
  rw [← not_iff_not, ← get?_eq_none_iff, Bool.not_eq_true, Option.isSome_eq_false_iff, Option.isNone_iff_eq_none]

theorem nodup_keys_put {entries : List (α × β)} (h : (entries.map Prod.fst).Nodup) (k : α) (v : β) :
    ((put k v entries).map Prod.fst).Nodup := by
  rw [keys_put]
  split
  · exact h
  next hk =>
    rw [← List.concat_eq_append]
    exact h.concat hk

theorem putAll_cons (p : α × β) (pairs entries : List (α × β)) :
    putAll (p :: pairs) entries = putAll pairs (put p.1 p.2 entries) := rfl

theorem putAll_append (pairs more entries : List (α × β)) :
    putAll (pairs ++ more) entries = putAll more (putAll pairs entries) := List.foldl_append

/-- The last of the pairs with a key decides, and what was there before only if there is none. -/
theorem get?_putAll (k : α) (pairs entries : List (α × β)) :
    get? k (putAll pairs entries) = (pairs.reverse.lookup k).or (get? k entries) := by
  induction pairs generalizing entries with
  | nil => rfl
  | cons p rest ih =>
    rw [putAll_cons, ih, get?_put, List.reverse_cons, List.lookup_append, Option.or_assoc, List.lookup_cons]
    by_cases h : k = p.1
    · simp [h]
    · simp [h, beq_eq_false_iff_ne.2 h]

theorem get?_putAll_of_notMem {k : α} {pairs : List (α × β)} (h : k ∉ pairs.map Prod.fst) (entries : List (α × β)) :
    get? k (putAll pairs entries) = get? k entries := by
  induction pairs generalizing entries with
  | nil => rfl
  | cons p rest ih =>
    obtain ⟨hp, hrest⟩ := not_or.1 (mt List.mem_cons.2 h)
    rw [putAll_cons, ih hrest, get?_put, if_neg hp]

theorem get?_putAll_of_mem {k : α} {v : β} {pairs : List (α × β)} (hpairs : (pairs.map Prod.fst).Nodup)
    (h : (k, v) ∈ pairs) (entries : List (α × β)) : get? k (putAll pairs entries) = some v := by
  induction pairs generalizing entries with
  | nil => cases h
  | cons p rest ih =>
    obtain ⟨hp, hrest⟩ := List.nodup_cons.1 hpairs
    rw [putAll_cons]
    rcases List.mem_cons.1 h with rfl | h
    · rw [get?_putAll_of_notMem hp, get?_put, if_pos rfl]
    · exact ih hrest h _

/-- Entered one after another, keys stand in the order in which they first occur. -/
theorem keys_putAll_nil (pairs : List (α × β)) :
    (putAll pairs []).map Prod.fst = (pairs.map Prod.fst).eraseDups := by
  induction pairs using List.reverseRecOn with
  | nil => rfl
  | append_singleton pairs p ih =>
    have hmem : p.1 ∈ (putAll pairs []).map Prod.fst ↔ p.1 ∈ pairs.map Prod.fst := by rw [ih, List.mem_eraseDups]
    rw [putAll_append, putAll_cons, List.map_append, List.eraseDups_append, ← ih]
    change (put p.1 p.2 (putAll pairs [])).map Prod.fst = _
    rw [keys_put]
    by_cases h : p.1 ∈ pairs.map Prod.fst
    · rw [if_pos (hmem.2 h)]
      simp [List.removeAll, h]
    · rw [if_neg (mt hmem.1 h)]
      simp [List.removeAll, h, List.eraseDups_cons]

theorem nodup_keys_putAll {entries : List (α × β)} (h : (entries.map Prod.fst).Nodup) (pairs : List (α × β)) :
    ((putAll pairs entries).map Prod.fst).Nodup := by
  induction pairs generalizing entries with
  | nil => exact h
  | cons p rest ih => exact ih (nodup_keys_put h p.1 p.2)

/-- Keys that differ from one another come after the old ones, without those that are old themselves. -/
theorem keys_putAll {pairs : List (α × β)} (hpairs : (pairs.map Prod.fst).Nodup) (entries : List (α × β)) :
    (putAll pairs entries).map Prod.fst =
      entries.map Prod.fst ++ (pairs.map Prod.fst).removeAll (entries.map Prod.fst) := by
  induction pairs generalizing entries with
  | nil => exact (List.append_nil _).symm
  | cons p rest ih =>
    obtain ⟨hp, hrest⟩ := List.nodup_cons.1 hpairs
    rw [putAll_cons, ih hrest, keys_put]
    by_cases h : p.1 ∈ entries.map Prod.fst
    · simp [h, List.removeAll]
    · -- the new key is not among the others, so it makes no difference to them that it is there now
      have hothers : (rest.map Prod.fst).removeAll (entries.map Prod.fst ++ [p.1]) =
          (rest.map Prod.fst).removeAll (entries.map Prod.fst) := by
        refine List.filter_congr fun k hk => ?_
        have hne : k ≠ p.1 := fun heq => hp (heq ▸ hk)
        simp [hne]
      rw [if_neg h, hothers, List.map_cons, List.append_assoc]
      simp [List.removeAll, h]

end Entries

/-! ### Items -/

namespace Object

variable {κ ν : Type}

theorem exchange_eq (o : Object κ ν) (key : String) (v : ν) : o.exchange key v = (o.get? key, o.insert key v) := by
  rw [exchange, Entries.exchange_eq]
  rfl

/-- An insertion adds the key at the end if it replaces nothing. -/
theorem keys_insert_eq_append (o : Object κ ν) (key : String) (v : ν) :
    (o.insert key v).keys = o.keys ++ (if (o.get? key).isNone then [key] else []) := by
  have hkey : key ∉ o.keys ↔ (o.get? key).isNone = true := by
    rw [Option.isNone_iff_eq_none]
    exact (Entries.get?_eq_none_iff key o.members).symm
  rw [keys_insert]
  by_cases h : key ∈ o.keys
  · rw [if_pos h, if_neg fun hnone => hkey.2 hnone h, List.append_nil]
  · rw [if_neg h, if_pos (hkey.1 h)]

/-- The items that are present, under the texts of their positions from `i` on. -/
def itemPairs (i : Nat) (items : List (Option ν)) : List (String × ν) :=
  (items.zipIdx i).filterMap fun p => p.1.map fun v => (p.2.repr, v)

theorem insertItems_eq (o : Object κ ν) (i : Nat) (items : List (Option ν)) :
    o.insertItems i items = { o with members := Entries.putAll (itemPairs i items) o.members } := by
  induction items generalizing o i with
  | nil => rfl
  | cons item rest ih =>
    cases item with
    | none => exact ih o (i + 1)
    | some v => exact ih (o.insert i.repr v) (i + 1)

/-- What an array inserts. -/
def arrayPairs (length : ν) (items : List (Option ν)) : List (String × ν) := ("length", length) :: itemPairs 0 items

theorem ofItems_eq (length : ν) (items : List (Option ν)) (extra : Object κ ν) :
    ofItems length items extra = { extra with members := Entries.putAll (arrayPairs length items) extra.members } :=
  insertItems_eq _ 0 items

theorem keys_itemPairs (i : Nat) (items : List (Option ν)) :
    (itemPairs i items).map Prod.fst = (items.findIdxs Option.isSome i).map Nat.repr := by
  induction items generalizing i with
  | nil => rfl
  | cons item rest ih =>
    cases item with
    | none => exact ih (i + 1)
    | some v =>
      rw [List.findIdxs_cons, if_pos Option.isSome_some, List.map_cons, ← ih (i + 1)]
      rfl

theorem mem_itemPairs {i : Nat} {v : ν} {items : List (Option ν)} (h : items[i]? = some (some v)) :
    (i.repr, v) ∈ itemPairs 0 items :=
  List.mem_filterMap.2 ⟨(some v, i), List.mem_zipIdx_iff_getElem?.2 h, rfl⟩

theorem repr_ne_length (i : Nat) : i.repr ≠ "length" := by
  intro h
  have hdigit : 'l' ∈ Nat.toDigits 10 i := by
    rw [← Nat.toList_repr, h]
    decide
  exact absurd (Nat.isDigit_of_mem_toDigits (by decide) (by decide) hdigit) (by decide)

theorem nodup_keys_arrayPairs (length : ν) (items : List (Option ν)) :
    ((arrayPairs length items).map Prod.fst).Nodup := by
  rw [arrayPairs, List.map_cons, keys_itemPairs, List.nodup_cons]
  constructor
  · intro h
    obtain ⟨i, -, hi⟩ := List.mem_map.1 h
    exact repr_ne_length i hi
  · exact (List.nodup_map_iff fun _ _ => Nat.repr_injective).2 List.nodup_findIdxs

section Array

variable (length : ν) (items : List (Option ν)) (extra : Object κ ν)

theorem get?_ofItems_length : (ofItems length items extra).get? "length" = some length := by
  rw [ofItems_eq]
  exact Entries.get?_putAll_of_mem (nodup_keys_arrayPairs length items) List.mem_cons_self extra.members

theorem get?_ofItems_item {i : Nat} {v : ν} (h : items[i]? = some (some v)) :
    (ofItems length items extra).get? i.repr = some v := by
  rw [ofItems_eq]
  exact Entries.get?_putAll_of_mem (nodup_keys_arrayPairs length items)
    (List.mem_cons_of_mem _ (mem_itemPairs h)) extra.members

theorem get?_ofItems_other {key : String} (hlength : key ≠ "length")
    (hitem : ∀ (i : Nat) v, items[i]? = some (some v) → key ≠ i.repr) :
    (ofItems length items extra).get? key = extra.get? key := by
  rw [ofItems_eq]
  refine Entries.get?_putAll_of_notMem (fun h => ?_) extra.members
  rcases List.mem_cons.1 h with h | h
  · exact hlength h
  · obtain ⟨⟨key', v⟩, hmem, rfl⟩ := List.mem_map.1 h
    obtain ⟨⟨item, i⟩, hitem', hpair⟩ := List.mem_filterMap.1 hmem
    obtain ⟨v', rfl, hv'⟩ := Option.map_eq_some_iff.1 hpair
    cases hv'
    exact hitem i v (List.mem_zipIdx_iff_getElem?.1 hitem') rfl

theorem keys_ofItems : (ofItems length items extra).keys =
    extra.keys ++ ("length" :: (items.findIdxs Option.isSome).map Nat.repr).removeAll extra.keys := by
  rw [ofItems_eq]
  change (Entries.putAll (arrayPairs length items) extra.members).map Prod.fst = _
  rw [Entries.keys_putAll (nodup_keys_arrayPairs length items), arrayPairs, List.map_cons, keys_itemPairs]
  rfl

theorem handlers_ofItems : (ofItems length items extra).handlers = extra.handlers := by rw [ofItems_eq]

end Array

end Object

/-! ### Members and their order apart -/

/-- An object as a table of its members and the keys in their order, which each insertion has to keep in step. -/
structure Indexed (κ ν : Type) where
  members : Std.HashMap String ν := ∅
  order : Array String := #[]
  handlers : List (Handler × MacroFn κ) := []

namespace Indexed

variable {κ ν : Type}

def get? (x : Indexed κ ν) (key : String) : Option ν := x.members[key]?

/-- Inserts a member, and gives back the one that it replaces. Only a key without a member joins the order. -/
def exchange (x : Indexed κ ν) (key : String) (v : ν) : Option ν × Indexed κ ν :=
  let previous := x.members[key]?
  let order := if previous.isNone then x.order.push key else x.order
  (previous, { x with members := x.members.insert key v, order })

def setHandler (x : Indexed κ ν) (h : Handler) (f : MacroFn κ) : Indexed κ ν :=
  { x with handlers := Entries.put h f x.handlers }

def insertAll (x : Indexed κ ν) (pairs : List (String × ν)) : Indexed κ ν :=
  pairs.foldl (fun x p => (x.exchange p.1 p.2).2) x

def ofItems (length : ν) (items : List (Option ν)) (extra : Indexed κ ν) : Indexed κ ν :=
  extra.insertAll (Object.arrayPairs length items)

/-- The order lists the keys of the table, each of them once. -/
structure InStep (x : Indexed κ ν) : Prop where
  nodup : x.order.toList.Nodup
  mem_iff : ∀ key, key ∈ x.order.toList ↔ (x.get? key).isSome = true

/-- The table has the members of the object, and the order its keys. -/
structure Represents (x : Indexed κ ν) (o : Object κ ν) : Prop where
  members : ∀ key, x.get? key = o.get? key
  order : x.order.toList = o.keys
  handlers : x.handlers = o.handlers

theorem get?_exchange (x : Indexed κ ν) (key key' : String) (v : ν) :
    (x.exchange key v).2.get? key' = if key' = key then some v else x.get? key' := by
  rw [exchange, get?, Std.HashMap.getElem?_insert]
  simp only [beq_iff_eq, @eq_comm _ key key']
  rfl

theorem toList_order_exchange (x : Indexed κ ν) (key : String) (v : ν) :
    (x.exchange key v).2.order.toList = x.order.toList ++ (if (x.get? key).isNone then [key] else []) := by
  unfold exchange get?
  dsimp only
  split
  · exact Array.toList_push
  · exact (List.append_nil _).symm

/-- An insertion finds the key in the order if it finds it in the table, so it adds no key twice. -/
theorem InStep.exchange {x : Indexed κ ν} (hx : x.InStep) (key : String) (v : ν) : (x.exchange key v).2.InStep := by
  have hkey : key ∉ x.order.toList ↔ (x.get? key).isNone = true := by
    rw [hx.mem_iff, Bool.not_eq_true, Option.isSome_eq_false_iff]
  constructor
  · rw [toList_order_exchange]
    split
    next hnone =>
      rw [← List.concat_eq_append]
      exact hx.nodup.concat (hkey.2 hnone)
    next =>
      rw [List.append_nil]
      exact hx.nodup
  · intro key'
    rw [toList_order_exchange, get?_exchange, List.mem_append, hx.mem_iff]
    by_cases heq : key' = key
    · subst heq
      cases hget : x.get? key' <;> simp
    · simp [heq]

theorem InStep.insertAll {x : Indexed κ ν} (hx : x.InStep) (pairs : List (String × ν)) :
    (x.insertAll pairs).InStep := by
  induction pairs generalizing x with
  | nil => exact hx
  | cons p rest ih => exact ih (hx.exchange p.1 p.2)

theorem Represents.exchange {x : Indexed κ ν} {o : Object κ ν} (h : x.Represents o) (key : String) (v : ν) :
    (x.exchange key v).2.Represents (o.insert key v) where
  members := fun key' => by rw [get?_exchange, h.members, Object.get?_insert]
  order := by rw [toList_order_exchange, h.order, h.members, Object.keys_insert_eq_append]
  handlers := h.handlers

theorem Represents.insertAll {x : Indexed κ ν} {o : Object κ ν} (h : x.Represents o) (pairs : List (String × ν)) :
    (x.insertAll pairs).Represents { o with members := Entries.putAll pairs o.members } := by
  induction pairs generalizing x o with
  | nil => exact h
  | cons p rest ih => exact ih (h.exchange p.1 p.2)

theorem Represents.ofItems {x : Indexed κ ν} {o : Object κ ν} (h : x.Represents o) (length : ν)
    (items : List (Option ν)) : (Indexed.ofItems length items x).Represents (Object.ofItems length items o) := by
  rw [Object.ofItems_eq]
  exact h.insertAll _

end Indexed

/-! ### Constructions -/

/-- How an object is built: from nothing, by inserting a member or attaching a handler, or as an array on top of
another one. The length of an array is a value of its own, with the given identity. -/
inductive Construction (κ : Type)
  | empty
  | insert (c : Construction κ) (key : String) (v : Value κ)
  | setHandler (c : Construction κ) (h : Handler) (f : MacroFn κ)
  | array (id : Nat) (items : List (Option (Value κ))) (extra : Construction κ)

namespace Construction

variable {κ : Type}

def build : Construction κ → Object κ (Value κ)
  | empty => {}
  | insert c key v => c.build.insert key v
  | setHandler c h f => c.build.setHandler h f
  | array id items extra => Object.ofItems (.literal id (lengthLiteral items.length)) items extra.build

/-- The same construction on a table and an order. -/
def index : Construction κ → Indexed κ (Value κ)
  | empty => {}
  | insert c key v => (c.index.exchange key v).2
  | setHandler c h f => c.index.setHandler h f
  | array id items extra => Indexed.ofItems (.literal id (lengthLiteral items.length)) items extra.index

theorem inStep_index (c : Construction κ) : c.index.InStep := by
  induction c with
  | empty => exact ⟨List.nodup_nil, fun key => by simp [index, Indexed.get?]⟩
  | insert c key v ih => exact ih.exchange key v
  | setHandler c h f ih => exact ⟨ih.nodup, ih.mem_iff⟩
  | array id items extra ih => exact ih.insertAll _

theorem represents_index (c : Construction κ) : c.index.Represents c.build := by
  induction c with
  | empty => exact ⟨fun key => by simp [index, Indexed.get?, build, Object.get?], rfl, rfl⟩
  | insert c key v ih => exact ih.exchange key v
  | setHandler c h f ih => exact ⟨ih.members, ih.order, congrArg (Entries.put h f) ih.handlers⟩
  | array id items extra ih => exact ih.ofItems _ items

/-- The members that were inserted, in order. -/
def insertions : Construction κ → List (String × Value κ)
  | empty => []
  | insert c key v => c.insertions ++ [(key, v)]
  | setHandler c _ _ => c.insertions
  | array id items extra =>
    extra.insertions ++ Object.arrayPairs (.literal id (lengthLiteral items.length)) items

/-- The handlers that were attached, in order. -/
def attachments : Construction κ → List (Handler × MacroFn κ)
  | empty => []
  | insert c _ _ => c.attachments
  | setHandler c h f => c.attachments ++ [(h, f)]
  | array _ _ extra => extra.attachments

/-- An object is what was put into it. -/
theorem build_eq (c : Construction κ) :
    c.build = ⟨Entries.putAll c.insertions [], Entries.putAll c.attachments []⟩ := by
  induction c with
  | empty => rfl
  | insert c key v ih =>
    rw [build, ih, insertions, attachments, Entries.putAll_append]
    rfl
  | setHandler c h f ih =>
    rw [build, ih, insertions, attachments, Entries.putAll_append]
    rfl
  | array id items extra ih => rw [build, Object.ofItems_eq, ih, insertions, attachments, Entries.putAll_append]

end Construction

/-! ### Objects -/

/-- An object shows its insertions and its attachments, and nothing else. -/
structure Construction.Shows {κ : Type} (c : Construction κ) (o : Object κ (Value κ)) : Prop where
  nodup : o.keys.Nodup
  member : ∀ key, key ∈ o.keys ↔ (o.get? key).isSome = true
  size : o.size = o.keys.length
  order : o.keys = (c.insertions.map Prod.fst).eraseDups
  last : ∀ key, o.get? key = c.insertions.reverse.lookup key
  handler : ∀ h, o.handler? h = c.attachments.reverse.lookup h

theorem Construction.shows_build {κ : Type} (c : Construction κ) : c.Shows c.build := by
  rw [build_eq]
  exact {
    nodup := @Entries.nodup_keys_putAll _ _ _ [] List.nodup_nil c.insertions
    member := fun key => (Entries.isSome_get?_iff key _).symm
    size := (List.length_map Prod.fst).symm
    order := Entries.keys_putAll_nil c.insertions
    last := fun key => (Entries.get?_putAll key c.insertions []).trans (Option.or_none ..)
    handler := fun h => (Entries.get?_putAll h c.attachments []).trans (Option.or_none ..) }

/-- An array of the items on top of `extra`. -/
structure Object.IsArray {κ : Type} (o : Object κ (Value κ)) (items : List (Option (Value κ)))
    (extra : Object κ (Value κ)) : Prop where
  item : ∀ (i : Nat) v, items[i]? = some (some v) → o.get? i.repr = some v
  length : ∃ id x, o.get? "length" = some (.literal id (.number x)) ∧ Binary64.number? x = some (items.length : ℚ)
  other : ∀ key, key ≠ "length" → (∀ (i : Nat) v, items[i]? = some (some v) → key ≠ i.repr) →
    o.get? key = extra.get? key
  handlers : o.handlers = extra.handlers
  keys : o.keys = extra.keys ++ ("length" :: (items.findIdxs Option.isSome).map Nat.repr).removeAll extra.keys

theorem number?_lengthLiteral {n : Nat} (hn : n < 2 ^ 32) :
    ∃ x, lengthLiteral n = .number x ∧ Binary64.number? x = some (n : ℚ) := by
  have h53 : twoPow 53 = 2 ^ 53 := rfl
  refine ⟨Float.ofNat n, ?_, Binary64.number?_ofNat (by omega)⟩
  rw [lengthLiteral, Nat.min_eq_left (by omega)]

theorem Object.isArray_ofItems {κ : Type} (id : Nat) {items : List (Option (Value κ))} (hlen : items.length < 2 ^ 32)
    (extra : Object κ (Value κ)) :
    (ofItems (.literal id (lengthLiteral items.length)) items extra).IsArray items extra where
  item := fun _ _ h => get?_ofItems_item _ items extra h
  length := by
    obtain ⟨x, hliteral, hx⟩ := number?_lengthLiteral hlen
    exact ⟨id, x, by rw [get?_ofItems_length, hliteral], hx⟩
  other := fun _ hlength hitem => get?_ofItems_other _ items extra hlength hitem
  handlers := handlers_ofItems _ items extra
  keys := keys_ofItems _ items extra

/-- Every object shows what was put into it: each key once, in the order of first insertion, with the value that was
inserted last. An insertion gives back what it replaces, and adds a key only if it replaces nothing; members and
handlers do not affect each other. A table of the members with a separate order of their keys stays in step through
every construction, and represents the object. A new array has its items and its length on top of the object that it
extends, and is itself an object of this kind if that one is. -/
theorem objects_show_their_insertions {κ η : Type} :
    (∀ c : Construction κ, c.Shows c.build ∧ c.index.InStep ∧ c.index.Represents c.build) ∧
    (∀ (o : Object κ (Value κ)) (key : String) (v : Value κ),
      o.exchange key v = (o.get? key, o.insert key v) ∧
      (o.insert key v).keys = o.keys ++ (if (o.get? key).isNone then [key] else []) ∧
      (o.insert key v).handlers = o.handlers ∧
      ∀ x : Indexed κ (Value κ), x.Represents o →
        (x.exchange key v).1 = o.get? key ∧ (x.exchange key v).2.Represents (o.insert key v)) ∧
    (∀ (o : Object κ (Value κ)) (h : Handler) (f : MacroFn κ), (o.setHandler h f).members = o.members) ∧
    ∀ (items : List (Option (Value κ))) (extra : Object κ (Value κ)) (w : CompileState κ η), items.length < 2 ^ 32 →
      ∃ o, newArray items extra w = .ok (.object (w.values + 1) o) { w with values := w.values + 2 } ∧
        o.IsArray items extra ∧
        ∀ c : Construction κ, c.build = extra → (Construction.array w.values items c).build = o := by
  refine ⟨fun c => ⟨c.shows_build, c.inStep_index, c.represents_index⟩,
    fun o key v => ⟨o.exchange_eq key v, o.keys_insert_eq_append key v, rfl, fun x hx => ?_⟩, fun _ _ _ => rfl,
    fun items extra w hlen => ⟨_, rfl, Object.isArray_ofItems w.values hlen extra, fun c hc => ?_⟩⟩
  · exact ⟨hx.members key, hx.exchange key v⟩
  · rw [Construction.build, hc]

/-- An object with a length and a second item of its own. -/
def overlaid : Construction Unit :=
  ((Construction.empty.insert "1" (.void 0)).insert "length" (.void 1)).setHandler .get .getLink

/-- A pair whose second item is missing keeps the one that is there. -/
theorem overlaid_shows_its_insertions :
    ∃ o, newArray [some (.void 2), none] overlaid.build { CompileState.initial () with values := 3 } =
        .ok (.object 4 o) { CompileState.initial () with values := 5 } ∧
      o.keys = ["1", "length", "0"] ∧ o.get? "0" = some (.void 2) ∧ o.get? "1" = some (.void 0) ∧
      o.handlers = [(.get, .getLink)] := by
  obtain ⟨o, hnew, harray, -⟩ := objects_show_their_insertions.2.2.2 [some (.void 2), none] overlaid.build
    { CompileState.initial () with values := 3 } (by decide)
  refine ⟨o, hnew, harray.keys.trans (by decide), harray.item 0 _ rfl,
    (harray.other "1" (by decide) fun i v hitem hi => ?_).trans rfl, harray.handlers⟩
  obtain rfl : 1 = i := Nat.repr_injective hi
  cases hitem

end DeclCompiler
