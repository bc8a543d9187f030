import TemplateResolution.Pattern.Basic
import TemplateResolution.Query
import TemplateResolution.Term.Decoration

/-!
# Scenarios

Canned families that show the rules at work: each scenario declares patterns
into an empty registry, in which they are numbered from zero, and asks queries.
-/

namespace TemplateResolution

structure Scenario where
  name : String
  summary : String
  patterns : List Pattern
  queries : List Query

namespace Scenario

def types (names : List String) : List Parameter := names.map ({ name := ·, kind := .type })

def slots (terms : List Term) : List Slot := terms.map ({ term := · })

def int : Term := .type "int"

def char : Term := .type "char"

def bool : Term := .type "bool"

def constInt (n : Int) : Term := .value n "int"

def overloads : Scenario where
  name := "overloads"
  summary := "f(T1, T2) against f(T3, T4*)"
  patterns := [
    .overload "exampleFunc1" (types ["T1", "T2"]) (slots [.param 0, .param 1]),
    .overload "exampleFunc1" (types ["T3", "T4"]) (slots [.param 0, .pointer (.param 1)])]
  queries := [
    { name := "exampleFunc1", args := [int, int] },
    { name := "exampleFunc1", args := [int, .pointer int] }]

def ambiguous : Scenario where
  name := "ambiguous"
  summary := "f(T1, T1) against f(T2, int) called with (int, int)"
  patterns := [
    .overload "exampleFunc2" (types ["T1"]) (slots [.param 0, .param 0]),
    .overload "exampleFunc2" (types ["T2"]) (slots [.param 0, int])]
  queries := [
    { name := "exampleFunc2", args := [int, int] },
    { name := "exampleFunc2", args := [char, int] },
    { name := "exampleFunc2", args := [char, char] }]

def explicit : Scenario where
  name := "explicit"
  summary := "explicit specializations are only found through their own overload"
  patterns := [
    .overload "exampleFunc3" (types ["T1", "T2"]) (slots [.param 0, .param 1]),
    .overload "exampleFunc3" (types ["T3", "T4"]) (slots [.param 0, .pointer (.param 1)]),
    .explicitAt "exampleFunc3" 0 [int, .pointer int],
    .explicitFor "exampleFunc3" 1 [int, .pointer char]]
  queries := [
    { name := "exampleFunc3", args := [int, .pointer int] },
    { name := "exampleFunc3", args := [int, .pointer int], explicitArgs := [int, .pointer int] },
    { name := "exampleFunc3", args := [int, .pointer char] },
    { name := "exampleFunc3", args := [int, .pointer char], primaryOnly := true }]

def qualification : Scenario where
  name := "qualification"
  summary := "f(T1*) against f(const volatile T1*) called with const int*"
  patterns := [
    .overload "exampleFunc4" (types ["T1"]) (slots [.pointer (.param 0)]),
    .overload "exampleFunc4" (types ["T1"])
      (slots [.pointer (.qualified .constVolatile (.param 0))])]
  queries := [
    { name := "exampleFunc4", args := [.pointer (.qualified .const int)] },
    { name := "exampleFunc4", args := [.pointer int] }]

def references : Scenario where
  name := "references"
  summary := "by-value, lvalue reference, const reference and forwarding reference"
  patterns := [
    .overload "byValue" (types ["T"]) (slots [.param 0]),
    .overload "byValue" (types ["T"]) (slots [.reference .lvalue (.param 0)]),
    .overload "forwarding" (types ["T"]) (slots [.reference .lvalue (.param 0)]),
    .overload "forwarding" (types ["T"]) (slots [.reference .rvalue (.param 0)]),
    .overload "constRef" (types ["T"])
      (slots [.reference .lvalue (.qualified .const (.param 0))]),
    .overload "constRef" (types ["T"]) (slots [.reference .rvalue (.param 0)])]
  queries := [
    { name := "byValue", args := [.reference .lvalue int] },
    { name := "byValue", args := [int] },
    { name := "forwarding", args := [.reference .lvalue int] },
    { name := "forwarding", args := [int] },
    { name := "constRef", args := [.reference .lvalue int] },
    { name := "constRef", args := [int] }]

def packs : Scenario where
  name := "packs"
  summary := "f(T), f(T*, int = 5) and f(T, Ts...)"
  patterns := [
    .overload "exampleFunc9" (types ["T"]) (slots [.param 0]),
    .overload "exampleFunc9" (types ["T"])
      [{ term := .pointer (.param 0) }, { term := int, default := some (constInt 5) }],
    .overload "exampleFunc9"
      [{ name := "T", kind := .type }, { name := "Ts", kind := .type, pack := true }]
      (slots [.param 0, .expansion (.param 1)])]
  queries := [
    { name := "exampleFunc9", args := [int] },
    { name := "exampleFunc9", args := [.pointer int] },
    { name := "exampleFunc9", args := [int, char, bool] }]

def partials : Scenario where
  name := "partials"
  summary := "class B<T1, T2> with partial and explicit specializations"
  patterns := [
    .primary "B" (types ["T1", "T2"]),
    .partialOf "B" 0 (types ["T"]) [.param 0, .param 0],
    .partialOf "B" 0 (types ["T"]) [.param 0, int],
    .partialOf "B" 0 (types ["T", "T1"]) [.param 0, .pointer (.param 1)],
    .partialOf "B" 0 (types ["T", "T1"]) [.pointer (.param 0), .pointer (.param 1)],
    .explicitAt "B" 0 [int, int]]
  queries := [
    { name := "B", args := [int, int] },
    { name := "B", args := [int, int], primaryOnly := true },
    { name := "B", args := [char, char] },
    { name := "B", args := [char, int] },
    { name := "B", args := [int, .pointer int] },
    { name := "B", args := [.pointer int, .pointer char] },
    { name := "B", args := [.pointer int, .pointer int] }]

def defaults : Scenario where
  name := "defaults"
  summary := "vector<T, Allocator = allocator<T>> specialized for bool"
  patterns := [
    .primary "vector" [
      { name := "T", kind := .type },
      { name := "Allocator", kind := .type,
        default := some (.apply (.template "allocator") [.param 0]) }],
    .partialOf "vector" 0 (types ["Allocator"]) [bool, .param 0]]
  queries := [
    { name := "vector", args := [bool] },
    { name := "vector", args := [int] }]

def offsets : Scenario where
  name := "offsets"
  summary := "C<int, X+2, X> selected by value"
  patterns := [
    .primary "C" [
      { name := "T", kind := .type },
      { name := "A", kind := .value, valueType := some "int" },
      { name := "B", kind := .value, valueType := some "int" }],
    .partialOf "C" 0 [{ name := "X", kind := .value, valueType := some "int" }]
      [int, .offset (.param 0) 2, .param 0]]
  queries := [
    { name := "C", args := [int, constInt 5, constInt 3] },
    { name := "C", args := [int, constInt 4, constInt 3] }]

/-- The scenarios in the order in which they are listed and run. -/
def all : List Scenario :=
  [overloads, ambiguous, explicit, qualification, references, packs, partials, defaults, offsets]

def find? (name : String) : Option Scenario := all.find? (·.name = name)

end Scenario

end TemplateResolution
