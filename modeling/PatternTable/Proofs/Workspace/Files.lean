import PatternTable.Command.Generate
import PatternTable.Proofs.Files.Path
import PatternTable.Proofs.Module.Contents
import PatternTable.Proofs.Workspace.Exports

/-!
# The files of artifacts

The name of an artifact's file is the language of its document with a fixed ending. A language is
whatever follows the last period of a scope name, so the name of the file may have slashes in it,
but it never goes up. An artifact is no JSON, and its file does not have the name of a grammar.

Results:
* `Workspace.fileNames_nodup`: no two artifacts of a workspace have one file.
* `GenerateOptions.isName_fileName_iff`: which artifacts have the name of a file in a directory.
* `GenerateOptions.up_not_mem_components`: the name of an artifact's file never goes up.
* `Workspace.ofJson_of_mem_artifacts`: an artifact is no grammar.
-/

namespace PatternTable

/-! ## Names -/

/-- A piece of a text whose end has no separators is before the end, or has all of it. -/
theorem Text.mem_pieces_append {sep : Char → Bool} {text ending piece : List Char}
    (hending : ∀ c ∈ ending, sep c = false) (h : piece ∈ Text.pieces sep (text ++ ending)) :
    (∀ c ∈ piece, c ∈ text) ∨ ending.length ≤ piece.length := by
  induction text generalizing piece with
  | nil =>
    rw [List.nil_append, Text.pieces_eq_singleton sep ending hending, List.mem_singleton] at h
    exact .inr (h ▸ le_refl _)
  | cons x text ih =>
    have hcons {piece : List Char} (h : piece ∈ Text.pieces sep (text ++ ending)) :
        (∀ c ∈ piece, c ∈ x :: text) ∨ ending.length ≤ piece.length :=
      (ih h).imp_left fun hmem c hc => List.mem_cons_of_mem x (hmem c hc)
    rw [List.cons_append, Text.pieces] at h
    split at h
    · obtain rfl | h := List.mem_cons.1 h
      · exact .inl fun c hc => absurd hc List.not_mem_nil
      · exact hcons h
    · split at h
      · next hnone => exact absurd hnone (Text.pieces_ne_nil sep _)
      · next first rest hpieces =>
        rw [hpieces] at hcons
        obtain rfl | h := List.mem_cons.1 h
        · refine (hcons List.mem_cons_self).imp (fun hmem => ?_) Nat.le_succ_of_le
          exact List.forall_mem_cons.2 ⟨List.mem_cons_self, hmem⟩
        · exact hcons (List.mem_cons_of_mem first h)

namespace GenerateOptions

variable (options : GenerateOptions) (document : Document)

/-- The ending of the file of every artifact. -/
def ending : String := "-token-patterns.g.ts"

theorem fileName_config : options.config.fileName document = document.language ++ ending :=
  String.append_assoc

/-- A language has no periods. -/
theorem period_not_mem_language : '.' ∉ document.language.toList := by
  intro hmem
  rw [Document.language, String.toList_ofList, Text.lastPiece] at hmem
  obtain ⟨last, hlast⟩ := List.exists_mem_of_ne_nil _
    (Text.pieces_ne_nil (· == '.') document.id.toList)
  have hpiece := List.getLast_mem (List.ne_nil_of_mem hlast)
  rw [List.getLastD_eq_getLast?, List.getLast?_eq_some_getLast (List.ne_nil_of_mem hlast)] at hmem
  simpa using Text.not_separates_of_mem_pieces hpiece hmem

theorem slash_mem_fileName_iff : '/' ∈ (options.config.fileName document).toList ↔
    '/' ∈ document.language.toList := by
  rw [fileName_config, String.toList_append, List.mem_append]
  exact or_iff_left (by decide)

/-- A file lies directly in its directory if the language of its document has no slashes. -/
theorem isName_fileName_iff :
    Path.IsName (options.config.fileName document) ↔ '/' ∉ document.language.toList := by
  have hlength : 20 ≤ (options.config.fileName document).toList.length := by
    rw [fileName_config, String.toList_append, List.length_append]
    exact Nat.le_add_left _ _
  have hlong {name : String} (h : name.toList.length < 20) :
      options.config.fileName document ≠ name := by
    rintro rfl
    omega
  have hslash := (slash_mem_fileName_iff options document).not
  exact ⟨fun h => hslash.1 h.slash, fun h =>
    ⟨hlong (by decide), hlong (by decide), hlong (by decide), hslash.2 h⟩⟩

/-- The components of the name of a file do not go up. -/
theorem up_not_mem_components :
    ".." ∉ Path.components (options.config.fileName document) := by
  intro hup
  rw [Path.components, fileName_config, String.toList_append, List.mem_map] at hup
  obtain ⟨piece, hpiece, heq⟩ := hup
  obtain rfl : piece = ['.', '.'] := by rw [← String.toList_ofList (l := piece), heq]; rfl
  obtain hmem | hlength := Text.mem_pieces_append (by simp [ending]) hpiece
  · exact period_not_mem_language document (hmem '.' List.mem_cons_self)
  · exact absurd hlength (by decide)

theorem not_isGrammarName : isGrammarName (options.config.fileName document) = false := by
  have hlast : (options.config.fileName document).toList.reverse =
      's' :: ("-token-patterns.g.t".toList.reverse ++ document.language.toList.reverse) := by
    rw [fileName_config, String.toList_append, List.reverse_append]
    rfl
  rw [isGrammarName, Text.dropTrailing?, hlast]
  rfl

end GenerateOptions

namespace Workspace

theorem fileName_of_mem_artifacts {config : Config} {now : Calendar.Time} {workspace : Workspace}
    {artifact : Artifact} (h : artifact ∈ (workspace.compile config now).artifacts) :
    artifact.fileName = config.fileName artifact.document := by
  rw [artifacts_compile, List.mem_map] at h
  obtain ⟨linkage, -, rfl⟩ := h
  rfl

/-- No two artifacts have one file. -/
theorem fileNames_nodup (config : Config) (now : Calendar.Time) (workspace : Workspace) :
    ((workspace.compile config now).artifacts.map Artifact.fileName).Nodup := by
  have htables := tables_files_nodup config workspace
  rw [tables, Staged.values, List.map_filterMap] at htables
  rw [artifacts_compile, linked, Staged.values, linkAll, List.filterMap_map, List.map_map,
    List.map_filterMap]
  refine nodup_filterMap_of_imp htables fun staged name hname => ?_
  simp only [Function.comp_apply] at hname
  cases hstage : staged.stage with
  | error failure => simp [hstage, Except.bind, Except.toOption] at hname
  | ok table =>
    rw [hstage] at hname
    cases hlink : table.link (exportsOf config (workspace.build config).1) with
    | error failure => simp [hlink, Except.bind, Except.toOption] at hname
    | ok linkage =>
      obtain ⟨-, rfl⟩ := (Table.link_ok_iff _ _ _).1 hlink
      simp only [Except.bind, hlink] at hname
      exact hname

end Workspace

namespace Artifact

theorem ofJson_contents (config : Config) (now : Calendar.Time) (linkage : Linkage) :
    ∃ fault, Grammar.ofJson (ofLinkage config now linkage).contents = .error fault := by
  have hslash : ∃ rest, (ofLinkage config now linkage).contents.toList = '/' :: rest := by
    rw [contents_eq]
    exact ⟨_, rfl⟩
  obtain ⟨rest, hrest⟩ := hslash
  refine ⟨.malformed, ?_⟩
  rw [Grammar.ofJson, hrest]
  rfl

end Artifact

theorem Workspace.ofJson_of_mem_artifacts {config : Config} {now : Calendar.Time}
    {workspace : Workspace} {artifact : Artifact}
    (h : artifact ∈ (workspace.compile config now).artifacts) :
    ∃ fault, Grammar.ofJson artifact.contents = .error fault := by
  rw [artifacts_compile, List.mem_map] at h
  obtain ⟨linkage, -, rfl⟩ := h
  exact Artifact.ofJson_contents _ _ linkage

end PatternTable
