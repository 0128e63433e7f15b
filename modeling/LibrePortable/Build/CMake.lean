import LibrePortable.Lib.Regex

/-!
# Commands of CMake

A variable of CMake holds a text, and a list is a text whose elements have semicolons between
them. The values here have neither brackets nor backslashes, where other rules would apply.
A command that stops with an error has no result.
-/

namespace LibrePortable.Build

open Lib Regex

abbrev Text := List Char

/-- `file(STRINGS <file> <list> REGEX <regex>)` -/
def fileStrings (regex : Regex Char) (file : List Text) : Text :=
  List.intercalate [';'] (file.filter fun l => (regex.search l).isSome)

/-- `string(REGEX REPLACE <regex> <replacement> <variable> <input>)`; an empty match is an error. -/
def regexReplace (regex : Regex Char) (replacement : Match Char → Text) (input : Text) :
    Option Text :=
  regex.replaceAll replacement (input.length + 1) input

/-- `list(GET <list> <index> <variable>)`; an index that is out of range is an error. -/
def listGet (list : Text) (index : Nat) : Option Text :=
  if list.isEmpty then none else (list.splitOn ';')[index]?

/-- The arguments that an unquoted reference to a variable stands for: the elements of its list
that are not empty. -/
def unquoted (value : Text) : List Text := (value.splitOn ';').filter fun e => !e.isEmpty

/-- `string(REPLACE <match> <replacement> <variable> <input>...)`; no input is an error. -/
def stringReplace (pattern replacement : Text) (inputs : List Text) : Option Text :=
  if inputs.isEmpty then none
  else (text pattern).replaceAll (fun _ => replacement) (inputs.flatten.length + 1) inputs.flatten

theorem listGet_semicolons {x y z : Text} (hx : ';' ∉ x) (hy : ';' ∉ y) (hz : ';' ∉ z) (i : Nat) :
    listGet (x ++ ';' :: (y ++ ';' :: z)) i = [x, y, z][i]? := by
  have hne : (x ++ ';' :: (y ++ ';' :: z)).isEmpty = false := by simp
  rw [listGet, hne, List.splitOn_append_cons_self_of_not_mem hx,
    List.splitOn_append_cons_self_of_not_mem hy, List.splitOn_eq_singleton hz]
  rfl

/-- A value without semicolons is one argument, or none. -/
theorem unquoted_eq {value : Text} (h : ';' ∉ value) :
    unquoted value = if value.isEmpty then [] else [value] := by
  rw [unquoted, List.splitOn_eq_singleton h]
  cases value <;> rfl

theorem unquoted_flatten {value : Text} (h : ';' ∉ value) : (unquoted value).flatten = value := by
  rw [unquoted_eq h]
  cases value with
  | nil => rfl
  | cons c value => exact List.append_nil _

end LibrePortable.Build
