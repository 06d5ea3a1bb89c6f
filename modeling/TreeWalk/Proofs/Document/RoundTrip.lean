/-
A tree is loaded from the text of its document.

The text is read back as the value that was written, the value is decoded to the tree, and
the scan of the text for brackets finds the depth of the value.

The values in literals keep their members, in order of names; a tree whose literals have
theirs in this order comes back as it is.
-/
import TreeWalk.Proofs.Document.Loading
import TreeWalk.Proofs.Json.Nesting
import TreeWalk.Proofs.Json.Order
import TreeWalk.Syntax.Build

namespace TreeWalk

namespace Document

/-- An object that is a node is decoded from its text. -/
theorem decode_written {members : List (String × Json)} {n : Node}
    (hplain : (Json.obj members).Plain Json.AnyNames) (h : Node.ofJson (.obj members) = .ok n) :
    decode ((Json.obj members).writtenChars []) = .ok n := by
  have hwritten := Json.parse_iff_writtenAs.2 hplain.writtenAs_written
  have hdecode := decode_eq_ok.2 ⟨_, hwritten, h⟩
  rwa [Json.written, String.toList_ofList] at hdecode

end Document

namespace Node

/-- **A tree is loaded from the text of its document.**  Its literals hold values without doubles
and without repeated names, and the document nests no deeper than documents may.  Each literal
comes back with the members of its objects in order of their names; where they are in order
already, so is the whole tree. -/
theorem load_written {tree : Node} (hliterals : ∀ v ∈ tree.literals, v.Plain List.Nodup)
    (hdepth : tree.toJson.depth ≤ 2048) :
    load tree.toJson.written = .ok (tree.mapLiterals Json.normalize) ∧
      (∀ v ∈ tree.literals, v.Rearranged v.normalize) ∧
      ((∀ v ∈ tree.literals, v.Plain Json.Ascending) → load tree.toJson.written = .ok tree) := by
  have hplain : tree.toJson.Plain Json.AnyNames :=
    plain_toJson fun v hv => (hliterals v hv).mono fun _ _ => trivial
  have hdecode : Document.decode (tree.toJson.writtenChars []) =
      .ok (tree.mapLiterals Json.normalize) := by
    -- The reader tells an outermost object from other values, so the document is shown as one.
    have hjson := ofJson_toJson tree
    rw [toJson_eq] at hplain hjson ⊢
    exact Document.decode_written hplain hjson
  have hload : load tree.toJson.written = .ok (tree.mapLiterals Json.normalize) := by
    have hnesting : ¬nestingDepth (tree.toJson.writtenChars []) > maxDepth := by
      rw [nestingDepth_written hplain]
      exact Nat.not_lt.2 hdepth
    simp only [load, Json.written, String.toList_ofList, if_neg hnesting, hdecode]
  refine ⟨hload, fun v hv => (hliterals v hv).rearranged, ?_⟩
  intro hordered
  rw [hload, mapLiterals_of_fixed fun v hv => (hordered v hv).normalize_eq]

/-- The settings that `assorted` declares: an object with values of every other sort in it. -/
def assortedSettings : Json :=
  .obj [("depth", .num (.int (-9223372036854775808))),
    ("names", .arr [.str "\"\\\n\x00\u221e", .null, .bool true, .obj []])]

/-- A program that returns a string from a catch clause, with all offsets that it may have. -/
def assorted : Node :=
  let body := Build.var "settings" (some (Build.literal assortedSettings))
  let handler := Build.catchClause "e" [Build.returnStmt (some (Build.string "[\x7b"))]
  (Build.program [Build.tryStmt [body] [handler] none]).withOffsets 0 4294967295

theorem plain_assorted {names : List String → Prop} (hempty : names [])
    (hsettings : names ["depth", "names"]) : ∀ v ∈ assorted.literals, v.Plain names := by
  have hvalues : assorted.literals = [assortedSettings, .str "[\x7b"] := rfl
  have hlist : (Json.arr [.str "\"\\\n\x00\u221e", .null, .bool true, .obj []]).Plain names := by
    refine .arr ?_
    simp only [List.forall_mem_cons]
    exact ⟨.str _, .null, .bool true, .obj hempty (List.forall_mem_nil _), List.forall_mem_nil _⟩
  have hmembers : assortedSettings.Plain names := by
    refine .obj hsettings ?_
    simp only [List.forall_mem_cons]
    exact ⟨.int (by decide), hlist, List.forall_mem_nil _⟩
  simp only [hvalues, List.forall_mem_cons]
  exact ⟨hmembers, .str _, List.forall_mem_nil _⟩

theorem load_written_assorted :
    (∀ v ∈ assorted.literals, v.Plain List.Nodup) ∧ assorted.toJson.depth ≤ 2048 ∧
      load assorted.toJson.written = .ok assorted := by
  have hliterals := plain_assorted List.nodup_nil (by decide)
  have hordered : ∀ v ∈ assorted.literals, v.Plain Json.Ascending :=
    plain_assorted (by decide) (by decide)
  have hdepth : assorted.toJson.depth ≤ 2048 := by decide
  exact ⟨hliterals, hdepth, (load_written hliterals hdepth).2.2 hordered⟩

/-- A tree whose document would nest deeper than documents may is not loaded from it. -/
theorem load_written_deep {tree : Node} (hliterals : ∀ v ∈ tree.literals, v.Plain Json.AnyNames)
    (hdepth : 2048 < tree.toJson.depth) :
    load tree.toJson.written = .error (.tooDeep tree.toJson.depth 2048) := by
  have hnesting := nestingDepth_written (plain_toJson hliterals)
  have hdeep : tree.toJson.depth > maxDepth := hdepth
  simp only [load, Json.written, String.toList_ofList, hnesting, if_pos hdeep]
  rfl

end Node

end TreeWalk
