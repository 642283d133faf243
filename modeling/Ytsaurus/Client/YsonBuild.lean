import Ytsaurus.Client.Error
import Ytsaurus.Lib.SortedMap
import Ytsaurus.Lib.Utf8
import Ytsaurus.Yson.Value

/-!
# `Client/YsonBuild.lean` — the documents the API expects (`yson_build.rs`)

The parameters of a command are a dict. `insert` puts a key into a value that is known to be
one, and panics at any other; `field` says what a dict holds under a name.
-/

set_option autoImplicit false

namespace Ytsaurus.Client

open Yson (YsonValue YsonNode)
open Utf8 (asBytes)

namespace YsonBuild

def string (value : String) : YsonValue := .bare (.string (asBytes value))

def int (value : Int64) : YsonValue := .bare (.int64 value)

def boolean (value : Bool) : YsonValue := .bare (.boolean value)

def list (items : List YsonValue) : YsonValue := .bare (.list items)

def map (entries : List (String × YsonValue)) : YsonValue :=
  .bare (.map (SortedMap.extend [] (entries.map fun entry => (asBytes entry.1, entry.2))))

def emptyMap : YsonValue := .bare (.map [])

/-- Inserts into a value that is known to be a dict; panics otherwise. -/
def insert (target : YsonValue) (key : String) (value : YsonValue) :
    Except ClientError YsonValue :=
  match target.node with
  | .map entries => .ok { target with node := .map (SortedMap.insert (asBytes key) value entries) }
  | _ => .error .panicked

end YsonBuild

/-- What a value holds under a name, when it is a dict. -/
def field (value : YsonValue) (name : String) : Option YsonValue :=
  match value.node with
  | .map entries => SortedMap.lookup (asBytes name) entries
  | _ => none

/-- `matches!(value.node, YsonNode::Map(_))`. -/
def isDict (value : YsonValue) : Bool :=
  match value.node with
  | .map _ => true
  | _ => false

namespace YsonBuild

variable {target tagged value : YsonValue} {key : String}

theorem insert_dict (h : isDict target) (key : String) (value : YsonValue) :
    ∃ tagged, insert target key value = .ok tagged := by
  unfold isDict at h
  unfold insert
  cases hnode : target.node with
  | map entries => exact ⟨_, rfl⟩
  | _ =>
    rw [hnode] at h
    cases h

theorem isDict_insert (h : insert target key value = .ok tagged) : isDict tagged := by
  unfold insert at h
  split at h
  · cases h
    rfl
  · cases h

theorem attributes_insert (h : insert target key value = .ok tagged) :
    tagged.attributes = target.attributes := by
  unfold insert at h
  split at h
  · cases h
    rfl
  · cases h

/-- **What was inserted is there, and everything else stays.** -/
theorem field_insert (h : insert target key value = .ok tagged) (name : String) :
    field tagged name = if name = key then some value else field target name := by
  unfold insert at h
  split at h
  · rename_i entries hnode
    cases h
    unfold field
    rw [hnode]
    dsimp only
    rw [SortedMap.lookup_insert]
    by_cases hname : name = key
    · rw [if_pos hname, if_pos (congrArg asBytes hname)]
    · rw [if_neg hname, if_neg fun hbytes => hname (Utf8.asBytes_injective hbytes)]
  · cases h

/-- What a dict holds under a name is the last entry with that name. -/
theorem field_map (entries : List (String × YsonValue)) (name : String) :
    field (map entries) name =
      (entries.reverse.find? fun entry => decide (entry.1 = name)).map Prod.snd := by
  show SortedMap.lookup (asBytes name) _ = _
  rw [SortedMap.lookup_extend, ← List.map_reverse, List.find?_map]
  have hsame : ((fun entry => decide (entry.1 = asBytes name)) ∘
      fun entry : String × YsonValue => (asBytes entry.1, entry.2)) =
      fun entry => decide (entry.1 = name) := by
    funext entry
    exact decide_eq_decide.mpr ⟨fun h => Utf8.asBytes_injective h, congrArg asBytes⟩
  rw [hsame, Option.map_map]
  exact Option.or_none

theorem insert_panicked {e : ClientError} (h : insert target key value = .error e) :
    e = .panicked := by
  unfold insert at h
  split at h
  · cases h
  · cases h
    rfl

end YsonBuild

end Ytsaurus.Client
