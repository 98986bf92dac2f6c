import BindBlocks.Archive.Basic
import BindBlocks.Diagnostic

/-! Carrying places and diagnostics between the two texts of an archived file. What belongs to a
file without a record stays as it is. -/

namespace BindBlocks

def Record.locator (r : Record) : Locator := Locator.ofEntries r.source r.generated r.entries

namespace Archive

def locator? (a : Archive) (key : String) : Option Locator := (a.get? key).map Record.locator

def toGenerated (a : Archive) (key : String) (offset : Nat) : Except Fault (Option Nat) :=
  match a.locator? key with
  | some l => (l.toGenerated offset).map some
  | none => .ok none

def toSource (a : Archive) (key : String) (offset : Nat) : Except Fault (Option Nat) :=
  match a.locator? key with
  | some l => (l.toSource offset).map some
  | none => .ok none

def extentToGenerated (a : Archive) (key : String) (e : Extent) : Except Fault Extent :=
  match a.locator? key with
  | some l => e.toGenerated l
  | none => .ok e

def extentToSource (a : Archive) (key : String) (e : Extent) : Except Fault Extent :=
  match a.locator? key with
  | some l => e.toSource l
  | none => .ok e

/-- Carries a diagnostic back along a locator, if there is one. -/
def resolveAlong (l : Option Locator) (d : Diagnostic) : Except Fault Diagnostic :=
  match l with
  | some l => d.toSource l
  | none => .ok d

/-- Carries a diagnostic back to the source of its file. -/
def resolve (a : Archive) (d : Diagnostic) : Except Fault Diagnostic :=
  resolveAlong (a.locator? d.file) d

/-- Carries diagnostics back, with the locators that have been built so far at hand. -/
def resolveWith (a : Archive) (known : List (String × Option Locator)) :
    List Diagnostic → Except Fault (List Diagnostic)
  | [] => .ok []
  | d :: ds =>
    match List.lookup d.file known with
    | some l => do
      let resolved ← resolveAlong l d
      return resolved :: (← a.resolveWith known ds)
    | none => do
      let l := a.locator? d.file
      let resolved ← resolveAlong l d
      return resolved :: (← a.resolveWith ((d.file, l) :: known) ds)

/-- Carries diagnostics back and builds one locator for each file among them. -/
def resolveAll (a : Archive) (ds : List Diagnostic) : Except Fault (List Diagnostic) :=
  a.resolveWith [] ds

end Archive

end BindBlocks
