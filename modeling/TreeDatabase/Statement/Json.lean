import TreeDatabase.Json
import TreeDatabase.Statement

/-!
# Statements as JSON
-/

namespace TreeDatabase

def Field.toJson : Field → Json
  | .selectedName => .object [("field", .string "selected_name")]
  | .selectedValue => .object [("field", .string "selected_value")]
  | .childName i => .object [("field", .string "child_name"), ("index", .number i)]
  | .childValue i => .object [("field", .string "child_value"), ("index", .number i)]

def KeywordSite.toJson (site : KeywordSite) : Json :=
  .object (("keyword", .string site.generator.name) ::
    (site.parameter.map fun p => ("parameter", Json.string p)).toList ++
    [("field", site.field.toJson), ("ordinal", .number site.ordinal)])

def Filter.toJson (f : Filter) : Json :=
  .object [("fields", .array (f.fields.map fun field =>
    .array [.string field.1, Json.strings field.2]))]

def Statement.toJson (s : Statement) : Json :=
  .object [
    ("verb", .string s.verb.name),
    ("selected_name", .string s.selectedName),
    ("selected_value", (s.selectedValue.map Json.string).getD .null),
    ("parents", Json.strings s.parents),
    ("children", .array (s.children.map fun child => Json.strings [child.1, child.2])),
    ("filter", s.filter.toJson),
    ("repeat", .number s.repetitions),
    ("format", .string s.format.name),
    ("errors", Json.strings s.messages),
    ("keyword_sites", .array (s.sites.map KeywordSite.toJson)),
    ("original", .string s.text)]

end TreeDatabase
