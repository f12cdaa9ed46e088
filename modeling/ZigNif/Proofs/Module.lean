import ZigNif.Glue.Render
import ZigNif.Proofs.Except
import ZigNif.Proofs.Nif.Verified
import ZigNif.Proofs.Source.Depth
import ZigNif.Proofs.Workspace

/-!
# Proofs/Module — what the stages of a module do

Reading the code, parsing it and verifying the nifs run no command and change no file; each of them
gives the module back or fails.  A module with verified nifs and parsed code, to which the resources
of its nifs were added, is finished, so no renderer can fail for it.
-/

namespace ZigNif

open Build

variable {h : Host} {w w' : Workspace} {m m' : Module} {e : Failure}

/-! ## Finished modules -/

namespace Glue

/-- The module has nifs and parsed code, and the resources of its nifs are among its own. -/
def IsFinished (m : Module) : Prop :=
  m.nifs ≠ [] ∧ m.parsed.isSome ∧ ∀ n ∈ m.nifs, ∀ r ∈ n.resources, r ∈ m.resources

theorem exists_finish (hm : IsFinished m) : ∃ f, finish m = .ok f := by
  obtain ⟨hnifs, hparsed, hresources⟩ := hm
  have hfind : (m.nifs.find? fun n => !n.resources.all fun r => m.resources.contains r) = none :=
    List.find?_eq_none.mpr fun n hn => by simpa using hresources n hn
  have hsome : m.parsed ≠ none := Option.isSome_iff_ne_none.mp hparsed
  rw [finish, if_neg (by simpa using hnifs), if_neg (by simpa using hsome), hfind]
  exact ⟨_, rfl⟩

/-- The guard of the renderers checks that the module is finished, and nothing else. -/
theorem exists_finish_iff : (∃ f, finish m = .ok f) ↔ IsFinished m := by
  refine ⟨?_, exists_finish⟩
  rintro ⟨f, hf⟩
  unfold finish at hf
  split at hf
  case isTrue => cases hf
  case isFalse hnifs =>
    split at hf
    case isTrue => cases hf
    case isFalse hparsed =>
      split at hf
      case h_1 => cases hf
      case h_2 hfind =>
        refine ⟨by simpa using hnifs, by simpa [Option.isSome_iff_ne_none] using hparsed, ?_⟩
        intro n hn
        simpa using List.find?_eq_none.mp hfind n hn

theorem exists_renderEntry_iff : (∃ t, renderEntry m = .ok t) ↔ IsFinished m := by
  simp only [renderEntry, map_eq_ok_iff, ← exists_finish_iff]
  exact ⟨fun ⟨_, f, hf, _⟩ => ⟨f, hf⟩, fun ⟨f, hf⟩ => ⟨_, f, hf, rfl⟩⟩

theorem exists_renderEntry (hm : IsFinished m) : ∃ t, renderEntry m = .ok t :=
  exists_renderEntry_iff.mpr hm

/-- Every flavor has its renderer. -/
theorem exists_render_iff : (∃ t, render m = .ok t) ↔ IsFinished m := by
  have hflavor : m.flavor ∈ [Flavor.elixir, .erlang] := by cases m.flavor <;> simp
  simp only [render, renderIn, if_pos hflavor, map_eq_ok_iff, ← exists_finish_iff]
  exact ⟨fun ⟨_, f, hf, _⟩ => ⟨f, hf⟩, fun ⟨f, hf⟩ => ⟨_, f, hf, rfl⟩⟩

theorem exists_render (hm : IsFinished m) : ∃ t, render m = .ok t := exists_render_iff.mpr hm

end Glue

/-! ## Single stages -/

theorem Module.isFinished_withNifResources (hnifs : m.nifs ≠ []) (hparsed : m.parsed.isSome) :
    Glue.IsFinished m.withNifResources := by
  refine ⟨by simpa [withNifResources] using hnifs, hparsed, fun n hn r hr => ?_⟩
  obtain ⟨n₀, hn₀, rfl⟩ := List.mem_map.mp hn
  exact List.mem_append_right _ (List.mem_flatMap.mpr ⟨n₀, hn₀, hr⟩)

theorem Glue.IsFinished.withDocs (hm : Glue.IsFinished m) : Glue.IsFinished m.withDocs := by
  obtain ⟨hnifs, hparsed, hresources⟩ := hm
  refine ⟨by simpa [Module.withDocs] using hnifs, hparsed, fun n hn r hr => ?_⟩
  obtain ⟨n₀, hn₀, rfl⟩ := List.mem_map.mp hn
  exact hresources n₀ hn₀ r hr

/-- Everything after the report keeps the nifs' resources and the parsed code. -/
theorem Module.isFinished_withDocs (hnifs : m.nifs ≠ []) (hparsed : m.parsed.isSome) :
    Glue.IsFinished m.withNifResources.withDocs :=
  (isFinished_withNifResources hnifs hparsed).withDocs

namespace Options

variable {o : Options}

/-- Reading the code changes nothing. -/
theorem runIn_source_snd : (o.source.runIn h w).2 = w := by
  unfold source
  split
  · rfl
  · simp only [readTextOr, runIn_bind, runIn_read, runIn_get]
    split
    · rfl
    · split <;> rfl
  · rfl
  · rfl

end Options

namespace Build

/-- The names of imported files are relative to the working directory. -/
def ground (h : Host) : Import.Ground := { base := h.directory.text, here := h.directory }

/-- The walk over the files that a parsed file imports. -/
def importWalk (h : Host) (files : FileTree) (file : Text) (parsed : Source.Parsed) :
    Import.Walk × Option Failure :=
  Import.walkFrom (shelf h files) (ground h) file parsed

theorem runIn_forM_note {α : Type} (l : List α) (topic message : α → Text) :
    ∃ log, (forM l fun a => note (topic a) (message a)).runIn h w = (.ok ⟨⟩, { w with log }) := by
  induction l generalizing w with
  | nil => exact ⟨w.log, rfl⟩
  | cons a l ih =>
    rw [List.forM_cons, runIn_bind, runIn_note]
    exact ih

/-- Finding the imports reads files and writes to the log. -/
theorem runIn_imports (file : Text) (parsed : Source.Parsed) :
    ∃ log, (imports file parsed).runIn h w =
      (match (importWalk h w.files file parsed).2 with
        | some failure => .error failure
        | none => .ok (importWalk h w.files file parsed).1.names, { w with log }) := by
  obtain ⟨log, hlog⟩ := runIn_forM_note (h := h) (w := w)
    (importWalk h w.files file parsed).1.found (fun _ => "dependencies")
    (fun e => "dependency " ++ e.1 ++ " (from " ++ e.2 ++ ")")
  rw [importWalk, ground] at hlog
  refine ⟨log, ?_⟩
  simp only [imports, runIn_bind, runIn_read, runIn_get]
  rw [forIn_eq_forM (f := fun e => note "dependencies"
    ("dependency " ++ e.1 ++ " (from " ++ e.2 ++ ")"))]
  · simp only [hlog, importWalk, ground]
    rcases Import.walkFrom (shelf h w.files) { base := h.directory.text, here := h.directory } file
      parsed with ⟨_, _ | _⟩ <;> rfl
  · exact fun _ _ => rfl

end Build

namespace Module

theorem exists_withManifest_eq {source : Text} (hm : m.withManifest source = .ok m') :
    ∃ manifest, Manifest.ofSource m.file source = .ok manifest ∧
      m' = { m with manifest := some manifest } := by
  rw [withManifest] at hm
  split at hm
  · rename_i manifest hmanifest
    exact ⟨manifest, hmanifest, (Except.ok.inj hm).symm⟩
  · cases hm

theorem exists_withManifest_eq_error {source : Text} (he : m.withManifest source = .error e) :
    ∃ fault, Manifest.ofSource m.file source = .error fault ∧ e = .longNumeral fault := by
  rw [withManifest] at he
  split at he
  · cases he
  · rename_i fault hfault
    exact ⟨fault, hfault, (Except.error.inj he).symm⟩

/-- Parsing changes nothing but the log.  It fails with a build error if the code is faulty, where
the stack runs out, or where the walk over the imports stops. -/
theorem runIn_withParsed (code : Text) :
    (∃ fault e, ¬ Source.Overflows (h.stack.groups + 1) code ∧
      Source.parseFile (some m.file) code = .error fault ∧
      (m.withParsed code).runIn h w = (.error (.build e), w)) ∨
    (Source.Overflows (h.stack.groups + 1) code ∧
      (m.withParsed code).runIn h w = (.error (.tooDeep " in comparison"), w)) ∨
    ∃ parsed log, ¬ Source.Overflows (h.stack.groups + 1) code ∧
      Source.parseFile (some m.file) code = .ok parsed ∧
      (m.withParsed code).runIn h w =
        (match (importWalk h w.files m.options.sourcePath.text parsed).2 with
          | some failure => .error failure
          | none => .ok { m with
              parsed := some parsed
              dependencies := (importWalk h w.files m.options.sourcePath.text parsed).1.names },
        { w with log }) := by
  simp only [withParsed, runIn_bind, runIn_read]
  cases hwithin : Source.parseFileWithin (h.stack.groups + 1) (some m.file) code with
  | error failure =>
    rcases Source.parseFileWithin_eq_error_iff.mp hwithin with
      ⟨hdeep, rfl⟩ | ⟨hshallow, fault, hfault, rfl⟩
    · exact .inr (.inl ⟨hdeep, rfl⟩)
    · refine .inl ⟨fault, ?_⟩
      simp only
      split <;> exact ⟨_, hshallow, hfault, rfl⟩
  | ok parsed =>
    obtain ⟨hshallow, hparsed⟩ := Source.parseFileWithin_eq_ok_iff.mp hwithin
    obtain ⟨log, hlog⟩ := runIn_imports (h := h) (w := w) m.options.sourcePath.text parsed
    refine .inr (.inr ⟨parsed, log, hshallow, hparsed, ?_⟩)
    simp only [runIn_bind, hlog]
    cases (importWalk h w.files m.options.sourcePath.text parsed).2 <;> rfl

/-- Verifying changes nothing but the log.  It fails with a build error, or gives a module with
nifs. -/
theorem runIn_verify {reported : List Export} (hm : m.reported = some reported) :
    (∃ e, m.verify.runIn h w = (.error (.build e), w)) ∨
    ∃ nifs log, nifs ≠ [] ∧ m.verify.runIn h w = (.ok { m with nifs }, { w with log }) := by
  simp only [verify, hm]
  cases hnifs : Nif.verify m.declared reported (some m.file) (some m.name) with
  | error e =>
    exact .inl ⟨e, rfl⟩
  | ok nifs =>
    exact .inr ⟨nifs, _, (Nif.verify_eq_ok_iff.mp hnifs).2, rfl⟩

theorem of_verify_eq_error {reported : List Export} {e : Failure} {w' : Workspace}
    (hm : m.reported = some reported) (hstop : m.verify.runIn h w = (.error e, w')) :
    (∃ b, e = .build b) ∧ w' = w := by
  rcases runIn_verify (h := h) (w := w) hm with ⟨b, hrun⟩ | ⟨nifs, log, -, hrun⟩
  · rw [hstop] at hrun
    cases hrun
    exact ⟨⟨b, rfl⟩, rfl⟩
  · rw [hstop] at hrun
    cases hrun

/-- Parsing changes nothing but the log, whether it fails or not. -/
theorem exists_log_withParsed (code : Text) :
    ∃ log, ((m.withParsed code).runIn h w).2 = { w with log } := by
  rcases runIn_withParsed (h := h) (w := w) (m := m) code with
    ⟨_, _, -, -, hrun⟩ | ⟨-, hrun⟩ | ⟨_, log, -, -, hrun⟩
  · exact ⟨w.log, by rw [hrun]⟩
  · exact ⟨w.log, by rw [hrun]⟩
  · exact ⟨log, by rw [hrun]⟩

/-- Neither of them changes a file. -/
theorem files_withParsed (code : Text) : ((m.withParsed code).runIn h w).2.files = w.files := by
  obtain ⟨log, hlog⟩ := exists_log_withParsed (h := h) (w := w) (m := m) code
  rw [hlog]

theorem files_verify : (m.verify.runIn h w).2.files = w.files := by
  cases hm : m.reported with
  | none =>
    simp only [verify, hm]
    rfl
  | some reported =>
    rcases runIn_verify (h := h) (w := w) hm with ⟨_, hrun⟩ | ⟨_, _, -, hrun⟩
    · rw [hrun]
    · rw [hrun]

/-- Verification keeps everything but the nifs. -/
theorem exists_verify_eq (hverify : (m.verify.runIn h w).1 = .ok m') :
    ∃ reported nifs, m.reported = some reported ∧
      Nif.verify m.declared reported (some m.file) (some m.name) = .ok nifs ∧
      m' = { m with nifs } := by
  unfold verify at hverify
  split at hverify
  case h_1 => cases hverify
  case h_2 reported hreported =>
    rw [runIn_bind, runIn_ofBuild] at hverify
    cases hnifs : Nif.verify m.declared reported (some m.file) (some m.name) with
    | error e =>
      rw [hnifs] at hverify
      cases hverify
    | ok nifs =>
      rw [hnifs] at hverify
      exact ⟨reported, nifs, hreported, hnifs, (Except.ok.inj hverify).symm⟩

end Module

end ZigNif
