import SchemaWire.Native.Basic
/-!
# Nodes, lines and orders

Three native record types: a linked list of labelled nodes, and an order with its lines. Between
them they use every feature of declarations for which native data has a need: a type that contains
itself, fields that are added later, integers of variable length, nullable scalars and texts, and
lists of records.

Nodes contain nodes, so they ask whether they are known before they are declared. Lines and orders
are declared in any case.
-/

namespace SchemaWire.Shapes

/-- The number of the nodes. -/
def node : Fin 3 := 0

/-- The number of the lines. -/
def line : Fin 3 := 1

/-- The number of the orders. -/
def order : Fin 3 := 2

/-- A node of a linked list, with its weight if that is known. -/
def nodeRecord : NativeRecord 3 where
  name := "Node"
  fields :=
    [{ name := "label", type := .text },
     { name := "weight", type := .optional (.scalar .u16), varLength := true },
     { name := "next", type := .optional (.boxed (.record node)), added := 1 }]
  asksFirst := true

/-- A line of an order. -/
def lineRecord : NativeRecord 3 where
  name := "Line"
  fields :=
    [{ name := "sku", type := .text },
     { name := "qty", type := .scalar .i16, varLength := true },
     { name := "price", type := .scalar .f64 }]

/-- An order. -/
def orderRecord : NativeRecord 3 where
  name := "Order"
  fields :=
    [{ name := "id", type := .scalar .u32, varLength := true },
     { name := "lines", type := .list (.record line) },
     { name := "note", type := .optional .text },
     { name := "rush", type := .optional (.scalar .bool) }]

/-- Nodes, lines and orders. -/
def types : NativeTypes where
  count := 3
  record
    | 0 => nodeRecord
    | 1 => lineRecord
    | 2 => orderRecord
  eq_of_name_eq := by decide
  guarded := by decide

/-- The data of a node. -/
def nodeData (label : String) (weight : NativeData types (.optional (.scalar .u16)))
    (next : NativeData types (.optional (.boxed (.record node)))) : NativeData types (.record node) :=
  .record fun j : Fin 3 =>
    match j with
    | 0 => .text label
    | 1 => weight
    | 2 => next

end SchemaWire.Shapes
