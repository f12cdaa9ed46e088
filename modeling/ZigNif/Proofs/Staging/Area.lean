import Mathlib.Data.List.TakeWhile
import ZigNif.Proofs.Files.Changes
import ZigNif.Proofs.Staging

/-!
# Proofs/Staging/Area — where staging writes, and where staging directories are

Staging writes copies below the directory of the module, each by visible names and with the suffix
of a Zig file, and the staged source.  The directory is named by the environment and the module,
which stand behind one another in a text that is read as a path: if both are names, the directory is
two names below that of the root; if not, a slash can shift where one ends and the other begins.
-/

namespace ZigNif

open Build ZigNif.Path

namespace Staging

variable {h : Host} {A : Set Location} {w w' : Workspace} {source target : Path}
  {root : Option Text} {env module : Text} {here : Location}

/-! ## What staging writes -/

/-- The names that lead to a copy: none of them is hidden, and the last is that of a Zig file. -/
structure IsCopyPlace (rel : Location) : Prop where
  visible : ∀ n ∈ rel, isHidden n = false
  zig : ∃ dirs name, rel = dirs ++ [name] ∧ (".zig" : Text).isSuffixOf name

theorem parentName_notMem {names : List Text} (hnames : ∀ n ∈ names, isHidden n = false) :
    parentName ∉ names := fun hmem => by
  cases hnames _ hmem

/-- The path is on the way to the target, or to something below it by visible names. -/
def IsVisibleWay (target : Path) : Path → Prop := IsTowards target fun n => isHidden n = false

section Keeps

variable {R : Workspace → Workspace → Prop} [IsPreorder Workspace R]

theorem keeps_copySources_of (hR : IsChangeRule h (IsVisibleWay target) A R)
    (hA : ∀ rel, IsCopyPlace rel → target.place h.here ++ rel ∈ A) :
    Keeps h R IsFault (copySources source target) w := by
  refine keeps_copySources (I := fun _ => True) (N := fun n => isHidden n = false) ?_ trivial
  refine ⟨fun _ _ _ _ => trivial, fun _ _ _ _ _ _ _ hvisible => hvisible,
    fun q hq w files _ => hR.directory w q files hq, ?_⟩
  intro names name hnames hzig w bytes files _ _ hwrite
  refine hR.file w _ bytes files ?_ hwrite
  rw [FileTree.place_join (parentName_notMem hnames)]
  exact hA _ ⟨hnames, names, name, rfl, hzig⟩

/-- **Staging makes directories on visible ways, writes copies and the staged source, and does
nothing else to the files.** -/
theorem keeps_stage_of {m : Module} {code : Text}
    (hR : IsChangeRule h (IsVisibleWay (directory h root m.options.env m.name)) A R)
    (hcopies : ∀ rel, IsCopyPlace rel →
      (directory h root m.options.env m.name).place h.here ++ rel ∈ A)
    (hstaged : ((directory h root m.options.env m.name).join
      (.ofText (sourceName m.name))).place h.here ∈ A) :
    Keeps h R (fun _ => True) (stage root m code) w := by
  rw [stage]
  refine .bind (.of_eq runIn_read (refl_of _ _) (by rintro _ ⟨⟩)) fun host w₁ hread _ => ?_
  obtain rfl : h = host := Except.ok.inj (congrArg Prod.fst hread)
  refine .bind (hR.keeps_makeDirectories fun q => IsTowards.self.of_prefix) fun _ w₂ _ _ => ?_
  refine .bind ⟨(keeps_copySources_of hR hcopies).leaves, fun _ _ => trivial⟩
    fun _ w₃ _ _ => ?_
  refine .bind (hR.keeps_writeText hstaged) fun _ w₄ _ _ => ?_
  exact .bind (hR.keeps_of_files_eq rfl) fun _ w₅ _ _ => .pure _

end Keeps

/-! ## Staging directories -/

/-- The directory that all staging directories of a root are in. -/
def rootDirectory (h : Host) (root : Option Text) : Path :=
  let base := ((Span.named root).getD h.defaultRoot).map fun c => if c = '\\' then '/' else c
  .ofText (Text.dropEndWhile (· = '/') base ++ "/" ++ directoryName)

/-- What stands behind a slash in a text leads on from what stands before it. -/
theorem ofText_append_slash {t s : Text} (ht : ∃ c ∈ t, c ≠ '/') :
    ofText (t ++ '/' :: s) =
      (ofText t).join { names := (Text.splitOn '/' s).filter fun n => n ≠ [] ∧ n ≠ ['.'] } := by
  have hne : (t.takeWhile (· = '/')).length ≠ t.length := by
    intro hlength
    obtain ⟨c, hc, hslash⟩ := ht
    have hself : t.takeWhile (· = '/') = t := (List.takeWhile_prefix _).eq_of_length hlength
    rw [← hself] at hc
    exact hslash (by simpa using List.mem_takeWhile_imp hc)
  have hroot : (t ++ '/' :: s).takeWhile (· = '/') = t.takeWhile (· = '/') := by
    rw [List.takeWhile_append, if_neg hne]
  simp only [ofText, join, hroot, Text.splitOn_append_cons, List.filter_append, if_pos]

theorem ofText_append_name {t n : Text} (ht : ∃ c ∈ t, c ≠ '/') (hn : IsName n) :
    ofText (t ++ '/' :: n) = (ofText t).join { names := [n] } := by
  obtain ⟨hne, hdot, hslash⟩ := hn
  rw [ofText_append_slash ht, Text.splitOn_of_notMem hslash]
  simp [hne, hdot]

/-- **An environment and a module that are names are the last two names of the directory.** -/
theorem directory_eq (henv : IsName env) (hmodule : IsName module) :
    directory h root env module = (rootDirectory h root).join { names := [env, module] } := by
  rw [directory, assemblyDirectory, rootDirectory]
  generalize Text.dropEndWhile (· = '/') (((Span.named root).getD h.defaultRoot).map
    fun c => if c = '\\' then '/' else c) = base
  have hdot : '.' ∈ base ++ ("/" : Text) ++ directoryName :=
    List.mem_append_right _ (by decide)
  have htext : base ++ ("/" : Text) ++ directoryName ++ ("/" : Text) ++ env ++ ("/" : Text) ++
      module = (base ++ ("/" : Text) ++ directoryName ++ '/' :: env) ++ '/' :: module := by
    simp [slash_toList]
  rw [htext, ofText_append_name ⟨'.', List.mem_append_left _ hdot, by decide⟩ hmodule,
    ofText_append_name ⟨'.', hdot, by decide⟩ henv]
  simp [join]

theorem place_directory (henv : IsProperName env) (hmodule : IsProperName module) :
    (directory h root env module).place here =
      (rootDirectory h root).place here ++ [env, module] := by
  have hparent : parentName ∉ [env, module] := by
    simp [Ne.symm henv.2, Ne.symm hmodule.2]
  rw [directory_eq henv.1 hmodule.1, FileTree.place_join hparent]

/-- The name of the staged source is one name if that of the module has no slash. -/
theorem ofText_sourceName (hmodule : '/' ∉ module) :
    ofText (sourceName module) = { names := [sourceName module] } := by
  have hslash : '/' ∉ sourceName module := by simp [sourceName, hmodule]
  have hdot : sourceName module ≠ ['.'] := fun heq => by
    have hlength := congrArg List.length heq
    simp [sourceName] at hlength
  have hname : IsName (sourceName module) := ⟨by simp [sourceName], hdot, hslash⟩
  exact ofText_text (p := { names := [sourceName module] }) (by simpa [IsClean] using hname)

theorem place_stagedSource {p : Path} (hmodule : '/' ∉ module) :
    (p.join (.ofText (sourceName module))).place here = p.place here ++ [sourceName module] := by
  rw [ofText_sourceName hmodule, FileTree.place_join]
  intro hparent
  have hlength := congrArg List.length (List.mem_singleton.mp hparent)
  simp [sourceName] at hlength

end Staging

end ZigNif
