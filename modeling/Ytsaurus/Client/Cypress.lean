import Ytsaurus.Client.Commands
import Ytsaurus.Lib.Hex

/-!
# `Client/Cypress.lean` — what commands may do to the files of a cluster

An abstract model of the other side, for what several clients do to one cluster at once. It says
no more than the commands promise: an order changes nothing but what it names (`Touches`), a
`write_file` that was answered without an error left its contents there, and a `remove` left
nothing. An order that failed may have been carried out, in part or not at all, and a command that
the model does not know may do anything.
-/

set_option autoImplicit false

namespace Ytsaurus.Client

open Dialogue

/-- The contents of the files by path; nothing where there is none. -/
abbrev Files := String → Option (List UInt8)

namespace Order

/-- The path an order names. -/
def target (order : Order) : Option String := (field order.parameters "path").bind asStr

/-- The type of node that a `create` asks for. -/
def nodeType (order : Order) : Option String := (field order.parameters "type").bind asStr

/-- Commands that only read. -/
def READS : List String := ["get", "list", "exists", "get_file_from_cache"]

/-- Whether a path is that of a node named after a hash, as the entries of the cache are. -/
def NamedByHash (path : String) : Prop :=
  ∃ directory name, path = directory ++ "/" ++ name ∧ Hex.IsDigits name.toList

/-- Whether the order may change the file at a path. A `create` of another kind of node touches
no file. -/
def Touches (order : Order) (path : String) : Prop :=
  if order.command ∈ READS then False
  else if order.command = "create" then
    order.target = some path ∧ order.nodeType = some "file"
  else if order.command ∈ ["write_file", "set"] then order.target = some path
  else if order.command = "remove" then
    order.target = some path ∨
      ∃ root rest, order.target = some root ∧ path = root ++ "/" ++ rest
  else if order.command = "put_file_to_cache" then order.target = some path ∨ NamedByHash path
  else True

end Order

/-- What one exchange may have done to the files. -/
structure Effect (x : Exchange Order Answer) (before after : Files) : Prop where
  frame : ∀ path, ¬ x.1.Touches path → after path = before path
  written : ∀ path contents body, x.1.command = "write_file" → x.1.target = some path →
    x.1.payload = .bytes contents → x.2 = .ok body → after path = some contents
  removed : ∀ path body, x.1.command = "remove" → x.1.target = some path → x.2 = .ok body →
    after path = none

/-- A cluster that carries out what it answers without an error, and nothing else. -/
def carry (files : Files) (x : Exchange Order Answer) : Files := fun path =>
  if x.2.isOk ∧ x.1.target = some path then
    if x.1.command = "write_file" then
      match x.1.payload with
      | .bytes contents => some contents
      | _ => files path
    else if x.1.command = "remove" then none
    else files path
  else files path

end Ytsaurus.Client
