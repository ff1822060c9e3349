import CompactingHeap.Class.Descriptor

/-!
# The class registry

The registry holds every descriptor under its identifier, and beside the descriptors an index of
their names.  It only grows, so an identifier means the same class for ever.  It starts with the
classes that every heap offers.
-/

namespace CompactingHeap

/-- The descriptors, each at the position that its identifier gives, and the identifiers of the
names, the latest first. -/
structure Registry where
  classes : Array Descriptor
  names : List (String × ClassId)

namespace Registry

def intClass : Descriptor := ⟨.int, "core.Int", 8, 8, [], .none, ⟨false, rfl⟩⟩

def floatClass : Descriptor := ⟨.float, "core.Float", 8, 8, [], .none, ⟨false, rfl⟩⟩

def boolClass : Descriptor := ⟨.bool, "core.Bool", 1, 1, [], .none, ⟨false, rfl⟩⟩

def charClass : Descriptor := ⟨.char, "core.Char", 4, 4, [], .none, ⟨false, rfl⟩⟩

def consClass : Descriptor := ⟨.cons, "core.Cons", 16, 8, [.ref 0, .ref 8], .none, ⟨false, rfl⟩⟩

def stringClass : Descriptor := ⟨.string, "core.String", 0, 1, [], .bytes, ⟨true, rfl⟩⟩

def vectorClass : Descriptor := ⟨.vector, "core.Vector", 8, 8, [.run 0], .references, ⟨false, rfl⟩⟩

def arrayClass : Descriptor := ⟨.array, "core.Array", 24, 8, [.ref 16], .none, ⟨false, rfl⟩⟩

def hashtableClass : Descriptor :=
  ⟨.hashtable, "core.Hashtable", 24, 8, [.ref 16], .none, ⟨false, rfl⟩⟩

/-- The classes that every heap offers: four kinds of scalars, pairs, byte strings, runs of
references, growable arrays and hash tables. -/
def initial : Registry :=
  { classes := #[intClass, floatClass, boolClass, charClass, consClass, stringClass, vectorClass,
      arrayClass, hashtableClass]
    names := [("core.Hashtable", .hashtable), ("core.Array", .array), ("core.Vector", .vector),
      ("core.String", .string), ("core.Cons", .cons), ("core.Char", .char), ("core.Bool", .bool),
      ("core.Float", .float), ("core.Int", .int)] }

/-- The number of registered classes. -/
def size (registry : Registry) : Nat :=
  registry.classes.size

/-- Every descriptor, in the order of the identifiers. -/
def toList (registry : Registry) : List Descriptor :=
  registry.classes.toList

/-- The descriptor of an identifier. -/
def get (registry : Registry) (id : ClassId) : Except HeapError Descriptor :=
  match registry.classes[id.index]? with
  | some descriptor => .ok descriptor
  | none => .error (.fault (.unknownClass id))

theorem get_eq_ok_iff {registry : Registry} {id : ClassId} {descriptor : Descriptor} :
    registry.get id = .ok descriptor ↔ registry.classes[id.index]? = some descriptor := by
  unfold get
  split <;> simp_all

/-- The identifier of a name, if the name is taken. -/
def find? (registry : Registry) (name : String) : Option ClassId :=
  registry.names.lookup name

/-- The descriptor of a name. -/
def lookup (registry : Registry) (name : String) : Except HeapError Descriptor :=
  match registry.find? name with
  | some id => registry.get id
  | none => .error (.notFound name)

/-- Register a class, with a byte tail if `byteTail` holds, under a name not yet taken.  Its
identifier is the number of classes, cut to 32 bits. -/
def register (registry : Registry) (name : String) (size align : Nat) (trace : List TraceEntry)
    (byteTail : Bool) : Except HeapError (ClassId × Registry) :=
  if (registry.find? name).isSome then .error (.duplicateType name)
  else
    let id : ClassId := ⟨registry.size⟩
    match Descriptor.make id name size align trace byteTail with
    | .ok descriptor =>
        .ok (id,
          { classes := registry.classes.push descriptor, names := (name, id) :: registry.names })
    | .error error => .error error

/-- What a successful registration does: the new class comes last, and its name is free and becomes
known. -/
theorem register_eq_ok {registry extended : Registry} {name : String} {size align : Nat}
    {trace : List TraceEntry} {byteTail : Bool} {id : ClassId}
    (registered : registry.register name size align trace byteTail = .ok (id, extended)) :
    id = ⟨registry.size.toUInt32⟩ ∧ registry.find? name = none ∧
      ∃ descriptor, Descriptor.make id name size align trace byteTail = .ok descriptor ∧
        extended.classes = registry.classes.push descriptor ∧
          extended.names = (name, id) :: registry.names := by
  unfold register at registered
  split at registered
  · cases registered
  · next free =>
    dsimp only at registered
    split at registered
    · next added made =>
      cases registered
      exact ⟨rfl, Option.not_isSome_iff_eq_none.mp free, added, made, rfl, rfl⟩
    · cases registered

/-- Registration leaves every earlier class as it was. -/
theorem get_register {registry extended : Registry} {name : String} {size align : Nat}
    {trace : List TraceEntry} {byteTail : Bool} {id other : ClassId} {descriptor : Descriptor}
    (registered : registry.register name size align trace byteTail = .ok (id, extended))
    (known : registry.get other = .ok descriptor) : extended.get other = .ok descriptor := by
  obtain ⟨_, _, added, _, grown, _⟩ := register_eq_ok registered
  rw [get_eq_ok_iff] at known ⊢
  rw [grown, Array.getElem?_push]
  have inside := (Array.getElem?_eq_some_iff.mp known).1
  rw [if_neg (by omega), known]

end Registry

end CompactingHeap
