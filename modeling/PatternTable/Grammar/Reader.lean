import PatternTable.Grammar.Basic
import PatternTable.Json.Record

/-!
# Reading grammars

A grammar is read from JSON text. Arrays and objects that are part of it nest at most 127 deep;
members that no grammar has are ignored, at any depth.
-/

namespace PatternTable.Grammar

open Json (Fault Reader)

/-- The fields of a rule, in the order of their values in an array. -/
def ruleFields (rules : Reader (List Rule)) (captures : Reader Captures) : List (Json.Field Rule) :=
  [.ofOptional "include" Json.text fun rule value => { rule with reference := value },
    .ofOptional "name" Json.text fun rule value => { rule with name := value },
    .ofOptional "contentName" Json.text fun rule value => { rule with contentName := value },
    .ofOptional "comment" Json.text fun rule value => { rule with comment := value },
    .ofOptional "match" Json.text fun rule value => { rule with single := value },
    .ofOptional "begin" Json.text fun rule value => { rule with opening := value },
    .ofOptional "end" Json.text fun rule value => { rule with closing := value },
    .ofOptional "captures" captures fun rule value => { rule with captures := value },
    .ofOptional "beginCaptures" captures fun rule value => { rule with openingCaptures := value },
    .ofOptional "endCaptures" captures fun rule value => { rule with closingCaptures := value },
    .ofOptional "patterns" rules fun rule value => { rule with patterns := value }]

mutual

/-- Reads a rule whose arrays and objects nest at most `depth` deep, its own included. -/
def readRule (bound : Nat) : (depth : Nat) → Reader Rule
  | 0 => Json.tooDeep ['\x7b', '[']
  | depth + 1 =>
    Json.record bound (ruleFields (readRules bound depth) (readRuleMap bound depth)) {}

/-- Reads an array of rules, nested at most `depth` deep. -/
def readRules (bound : Nat) : (depth : Nat) → Reader (List Rule)
  | 0 => Json.tooDeep ['[']
  | depth + 1 => Json.list bound (readRule bound depth)

/-- Reads an object of rules, nested at most `depth` deep. -/
def readRuleMap (bound : Nat) : (depth : Nat) → Reader (List (String × Rule))
  | 0 => Json.tooDeep ['\x7b']
  | depth + 1 => Json.map bound (readRule bound depth)

end

/-- The fields of a grammar, in the order of their values in an array. -/
def fields (rules : Reader (List Rule)) (ruleMap : Reader (List (String × Rule))) :
    List (Json.Field Grammar) :=
  [.ofOptional "scopeName" Json.text fun grammar value => { grammar with scopeName := value },
    .ofOptional "name" Json.text fun grammar value => { grammar with name := value },
    .ofOptional "patterns" rules fun grammar value => { grammar with patterns := value },
    .ofOptional "repository" ruleMap fun grammar value => { grammar with repository := value }]

/-- The depth to which the arrays and objects of a grammar may nest. -/
def maxDepth : Nat := 127

/-- Reads a grammar. -/
def read (bound : Nat) : Reader Grammar :=
  Json.record bound (fields (readRules bound (maxDepth - 1)) (readRuleMap bound (maxDepth - 1))) {}

/-- The grammar that a text writes. Only white space may follow it. -/
def ofJson (text : String) : Except Fault Grammar :=
  match read (text.toList.length + 1) text.toList with
  | .error fault => .error fault
  | .ok (grammar, rest) =>
    if (Json.skipSpaces rest).isEmpty then .ok grammar else .error .malformed

end PatternTable.Grammar
