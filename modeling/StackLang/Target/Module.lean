/-
Modules and their byte form.

A module collects methods and, through the calls in their code, pool entries. Its byte form is, in order: eight zero
bytes; the pool; flags, name and super name; no interfaces, no fields; the methods, each with its attributes; no module
attributes. The names still missing from the pool are added just before writing. Once written, a module keeps its bytes
and takes no more methods or references; when writing fails, the pool is as it was before.
-/
import StackLang.Target.Instr
import StackLang.Target.Pool

namespace StackLang

/-- a named piece of data of a method -/
structure Attribute where
  name : String
  data : Bytes
deriving DecidableEq, Repr

/-- the name of the attribute that holds a method's code -/
def codeName : String := "Code"

/-- a code attribute: stack size (not used), number of locals, exception table (none), then the code -/
def Attribute.code (code : Bytes) (maxLocals : Int) : Except WriteFault Attribute := do
  let maxStack ← twoBytes "max stack" 0
  let maxLocals ← twoBytes "max locals" maxLocals
  let exceptions ← fourBytes "exception table" 0
  return ⟨codeName, maxStack ++ maxLocals ++ exceptions ++ code⟩

structure Method where
  name : String
  descriptor : String
  flags : Int
  attributes : List Attribute
deriving DecidableEq, Repr

/-- the bytes of an attribute, its name added to the pool -/
def Attribute.link (a : Attribute) : PoolM Bytes := do
  let name ← twoBytes "attribute name index" (← Pool.addUtf8 a.name)
  let length ← fourBytes "attribute length" a.data.length
  return name ++ length ++ a.data

/-- the bytes of a method, its names added to the pool -/
def Method.link (m : Method) : PoolM Bytes := do
  let flags ← twoBytes "method flags" m.flags
  let name ← twoBytes "method name index" (← Pool.addUtf8 m.name)
  let descriptor ← twoBytes "method descriptor index" (← Pool.addUtf8 m.descriptor)
  let count ← twoBytes "attribute count" m.attributes.length
  let attributes ← m.attributes.mapM Attribute.link
  return flags ++ name ++ descriptor ++ count ++ attributes.flatten

/-- a module under construction -/
structure Module where
  name : String
  superName : String
  flags : Int
  pool : Pool
  methods : List Method
  /-- the bytes of the module, once written -/
  written : Option Bytes
deriving DecidableEq, Repr

abbrev ModuleM (α : Type) := Step WriteFault Module α

namespace Module

def empty (name superName : String) : Module :=
  ⟨name, superName, 0, .empty, [], none⟩

def isSealed (m : Module) : Bool :=
  m.written.isSome

def onPool {α : Type} (change : PoolM α) : ModuleM α := fun ⟨name, superName, flags, pool, methods, written⟩ =>
  match change pool with
  | .ok a pool => .ok a ⟨name, superName, flags, pool, methods, written⟩
  | .error fault pool => .error fault ⟨name, superName, flags, pool, methods, written⟩

/-- fail if the module is already written -/
def checkOpen : ModuleM Unit := do
  let m ← get
  if m.isSealed then throw (.alreadySerialized m.name)

def addMethod (name descriptor : String) (code : Bytes) (maxLocals : Int) : ModuleM Method := do
  checkOpen
  let body ← Attribute.code code maxLocals
  let method : Method := ⟨name, descriptor, 0, [body]⟩
  modify fun m => { m with methods := m.methods ++ [method] }
  return method

/-- add a reference to a method of this module to the pool -/
def addMethodRef (name descriptor : String) : ModuleM Nat := do
  checkOpen
  onPool (Pool.addMethodRef (← get).name name descriptor)

/-- the first bytes of every module -/
def header : Bytes := List.replicate 8 0

/-- the bytes of a module; works on its pool, to which the missing names are added -/
def encode (m : Module) : PoolM Bytes := do
  let name ← Pool.addUtf8 m.name
  let superName ← Pool.addUtf8 m.superName
  let methods ← m.methods.mapM Method.link
  let flags ← twoBytes "access flags" m.flags
  let name ← twoBytes "this class index" name
  let superName ← twoBytes "super class index" superName
  let interfaces ← twoBytes "interfaces count" 0
  let fields ← twoBytes "fields count" 0
  let methodCount ← twoBytes "methods count" m.methods.length
  let attributes ← twoBytes "attributes count" 0
  let pool ← get
  let count ← twoBytes "constant pool count" (pool.size + 1)
  let constants ← pool.encode
  return header ++ (count ++ (constants ++ (flags ++ name ++ superName ++ interfaces ++ fields ++ methodCount ++
    (methods.flatten ++ attributes))))

/-- the bytes of a module, fixed at the first success; a failed attempt drops the entries it added -/
def toBytes : ModuleM Bytes := fun m =>
  match m.written with
  | some bytes => .ok bytes m
  | none =>
    match m.encode m.pool with
    | .ok bytes pool => .ok bytes { m with pool := pool, written := some bytes }
    | .error fault pool => .error fault { m with pool := pool.keep m.pool.size }

end Module

end StackLang
