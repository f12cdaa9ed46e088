import Mathlib.Order.Defs.Unbundled
import ZigNif.Proofs.Except
import ZigNif.Workspace

/-!
# Proofs/Workspace — what is done in a workspace, step by step

A computation in a workspace has a result and leaves a workspace, also when it fails.  `runIn` takes
both apart, step by step.  `Gives` says what results a computation can have; a sequence has those of
its last part.

`Keeps` says what a computation does in a workspace: it relates it to the one that it leaves, and
fails only in certain ways.  Along sequences, handlers and loops this holds if it holds of the
parts, for a relation that is reflexive and transitive.
-/

namespace ZigNif

/-! ## Replies -/

namespace Reply

variable {r r' : Reply} {e : Failure}

/-- A reply whose texts can be read is read as it is. -/
theorem read_eq_ok_iff : r.read = .ok r' ↔ r.fault = none ∧ r' = r := by
  rw [read]
  cases r.fault <;> simp [eq_comm]

/-- A reply fails to be read because of what it wrote, never because of its exit code. -/
theorem read_eq_error_iff : r.read = .error e ↔ ∃ fault, r.fault = some fault ∧
    e = .encoding fault := by
  rw [read]
  cases r.fault <;> simp [eq_comm]

end Reply

namespace Build

variable {α β : Type} {h : Host} {w w' : Workspace} {a : α} {b : β} {e : Failure}

/-! ## Steps -/

@[simp] theorem runIn_pure : (pure a : Build α).runIn h w = (.ok a, w) := rfl

@[simp] theorem runIn_throw : (throw e : Build α).runIn h w = (.error e, w) := rfl

@[simp] theorem runIn_read : (read : Build Host).runIn h w = (.ok h, w) := rfl

@[simp] theorem runIn_get : (get : Build Workspace).runIn h w = (.ok w, w) := rfl

/-- A result that is known leaves the workspace to be named. -/
theorem runIn_eq_of_fst {x : Build α} {r : Except Failure α} (hr : (x.runIn h w).1 = r) :
    x.runIn h w = (r, (x.runIn h w).2) :=
  Prod.ext hr rfl

/-- The second part of a sequence is done in the workspace that the first part leaves, if that has
not failed. -/
theorem runIn_bind {x : Build α} {f : α → Build β} : (x >>= f).runIn h w =
    match x.runIn h w with
    | (.ok a, w₁) => (f a).runIn h w₁
    | (.error e, w₁) => (.error e, w₁) := by
  unfold runIn ReaderT.run ExceptT.run StateT.run
  simp only [bind, ReaderT.bind, ExceptT.bind, ExceptT.mk, StateT.bind]
  cases x h w with
  | mk r w₁ => cases r <;> rfl

/-- A handler goes on in the workspace that the failure left: what was done stays done. -/
theorem runIn_tryCatch {x : Build α} {f : Failure → Build α} : (tryCatch x f).runIn h w =
    match x.runIn h w with
    | (.ok a, w₁) => (.ok a, w₁)
    | (.error e, w₁) => (f e).runIn h w₁ := by
  unfold runIn ReaderT.run ExceptT.run StateT.run
  simp only [tryCatch, tryCatchThe, MonadExceptOf.tryCatch, ExceptT.tryCatch, ExceptT.mk, bind,
    StateT.bind]
  cases x h w with
  | mk r w₁ => cases r <;> rfl

/-- A sequence succeeds if both parts do, one after the other. -/
theorem runIn_bind_eq_ok_iff {x : Build α} {f : α → Build β} : (x >>= f).runIn h w = (.ok b, w') ↔
    ∃ a w₁, x.runIn h w = (.ok a, w₁) ∧ (f a).runIn h w₁ = (.ok b, w') := by
  rw [runIn_bind]
  rcases x.runIn h w with ⟨_ | a, w₁⟩ <;> simp [and_assoc]

/-- A sequence leaves the workspace as it is if its parts do. -/
theorem runIn_bind_snd {x : Build α} {f : α → Build β} (hx : (x.runIn h w).2 = w)
    (hf : ∀ a, ((f a).runIn h w).2 = w) : ((x >>= f).runIn h w).2 = w := by
  rw [runIn_bind]
  rcases hrun : x.runIn h w with ⟨e | a, w₁⟩
  · rwa [hrun] at hx
  · obtain rfl : w₁ = w := by rwa [hrun] at hx
    exact hf a

/-- A loop that keeps no state does its steps one after the other. -/
theorem forIn_eq_forM {l : List α} {g : α → PUnit → Build (ForInStep PUnit)} {f : α → Build PUnit}
    (hg : ∀ a s, g a s = do f a; pure (.yield PUnit.unit)) :
    forIn l PUnit.unit g = forM l f := by
  induction l with
  | nil => rfl
  | cons a l ih =>
    rw [List.forIn_cons, List.forM_cons, hg, bind_assoc]
    simp only [pure_bind, ih]

/-- A loop whose steps come to nothing comes to nothing. -/
theorem runIn_forM_of_forall {l : List α} {f : α → Build PUnit}
    (hf : ∀ a ∈ l, (f a).runIn h w = (.ok ⟨⟩, w)) : (forM l f).runIn h w = (.ok ⟨⟩, w) := by
  induction l with
  | nil => rfl
  | cons a l ih =>
    rw [List.forM_cons, runIn_bind, hf a List.mem_cons_self]
    exact ih fun b hb => hf b (List.mem_cons_of_mem _ hb)

/-! ## Steps of a build -/

/-- A note is only in the log. -/
@[simp] theorem runIn_note {topic message : Text} : (note topic message).runIn h w =
    (.ok (), { w with log := w.log ++ [{ topic, message }] }) := rfl

@[simp] theorem runIn_ofExcept {r : Except Failure α} : (ofExcept r).runIn h w = (r, w) := by
  cases r <;> rfl

/-- A command is run in any case, but its answer need not be readable. -/
@[simp] theorem runIn_call {c : Call} :
    (call c).runIn h w = ((h.run c).read, { w with calls := w.calls ++ [c] }) := by
  rw [call, runIn_bind]
  exact runIn_ofExcept

/-- A build error is a failure among others. -/
@[simp] theorem runIn_ofBuild {r : Except BuildError α} :
    (ofBuild r).runIn h w = (r.mapError .build, w) := by
  cases r <;> rfl

/-- A change of the files fails at a null byte before the files are looked at. -/
theorem runIn_change {p : Path} {f : FileTree → Location → Except FileFault FileTree} :
    (change p f).runIn h w =
      if hasNull p then (.error .nullByte, w)
      else match f w.files h.here with
        | .ok files => (.ok (), { w with files })
        | .error fault => (.error (.file fault p.text), w) := by
  unfold change
  by_cases hp : hasNull p
  · simp [hp, runIn_bind]
  · simp only [hp, runIn_bind, runIn_read, runIn_get]
    cases f w.files h.here <;> rfl

/-- Listing a directory changes nothing. -/
theorem runIn_list {p : Path} : (list p).runIn h w =
    ((w.files.list h.here p).mapError (.file · p.text), w) := by
  simp only [list, runIn_bind, runIn_read, runIn_get]
  cases w.files.list h.here p <;> rfl

/-- What a listing in a workspace gives, its files give. -/
theorem list_of_runIn_list {p : Path} {inside : Table FileTree}
    (hlist : (list p).runIn h w = (.ok inside, w')) : w.files.list h.here p = .ok inside := by
  rw [runIn_list, Prod.mk.injEq] at hlist
  cases hinside : w.files.list h.here p with
  | error fault => rw [hinside] at hlist; cases hlist.1
  | ok inside' => rw [hinside] at hlist; exact congrArg _ (Except.ok.inj hlist.1)

/-- A path with a null byte is no directory, and no failure either. -/
theorem runIn_isDirectory {p : Path} : (isDirectory p).runIn h w =
    (if hasNull p then .ok false else (w.files.isDirectory h.here p).mapError (.file · p.text),
      w) := by
  unfold isDirectory
  by_cases hp : hasNull p
  · simp [hp]
  · simp only [hp, Bool.false_eq_true, if_false, runIn_bind, runIn_read, runIn_get]
    cases w.files.isDirectory h.here p <;> rfl

/-- A directory is found by a path without null bytes that leads to one. -/
theorem runIn_isDirectory_eq_ok_true_iff {p : Path} :
    ((isDirectory p).runIn h w).1 = .ok true ↔
      ¬ hasNull p ∧ w.files.isDirectory h.here p = .ok true := by
  rw [runIn_isDirectory]
  by_cases hnull : hasNull p
  · simp [hnull]
  · cases w.files.isDirectory h.here p <;> simp [hnull, mapError_ok, mapError_error]

/-- How many directories may be missing depends on the stack. -/
theorem runIn_makeDirectories {p : Path} : (makeDirectories p).runIn h w =
    (makeDirectoriesWithin h.stack.parents p).runIn h w := by
  rw [makeDirectories, runIn_bind, runIn_read]

/-! ## Results -/

/-- Whatever the computation gives, wherever it is done, has the property. -/
def Gives (p : α → Prop) (x : Build α) : Prop :=
  ∀ h w a, (x.runIn h w).1 = .ok a → p a

namespace Gives

variable {p : α → Prop} {q : β → Prop} {x : Build α} {f : α → Build β}

theorem pure (ha : p a) : Gives p (Pure.pure a) := by
  intro h w b hb
  obtain rfl := Except.ok.inj hb
  exact ha

theorem throw {e : Failure} : Gives p (throw e) := by
  intro h w b hb
  cases hb

/-- A known result gives its value, if it has one. -/
theorem ofExcept {r : Except Failure α} (hr : ∀ a, r = .ok a → p a) :
    Gives p (Build.ofExcept r) := by
  intro h w b hb
  rw [runIn_ofExcept] at hb
  exact hr b hb

/-- What a sequence gives, its last part gives. -/
theorem bind (hf : ∀ a, Gives q (f a)) : Gives q (x >>= f) := by
  intro h w b hb
  obtain ⟨a, w₁, -, hrun⟩ := runIn_bind_eq_ok_iff.mp (runIn_eq_of_fst hb)
  exact hf a h w₁ b (by rw [hrun])

/-- The last part gives that if it is done with what the first part gives. -/
theorem bind_of (hx : Gives p x) (hf : ∀ a, p a → Gives q (f a)) : Gives q (x >>= f) := by
  intro h w b hb
  obtain ⟨a, w₁, ha, hrun⟩ := runIn_bind_eq_ok_iff.mp (runIn_eq_of_fst hb)
  exact hf a (hx h w a (by rw [ha])) h w₁ b (by rw [hrun])

end Gives

/-! ## Frames -/

/-- In the workspace `w`, the computation leaves a workspace to which `R` relates `w`, and fails
only with failures in `P`. -/
structure Keeps (h : Host) (R : Workspace → Workspace → Prop) (P : Failure → Prop) (x : Build α)
    (w : Workspace) : Prop where
  leaves : R w (x.runIn h w).2
  fails : ∀ e, (x.runIn h w).1 = .error e → P e

/-- No command was run on the way from one workspace to the other. -/
def SameCalls (w w' : Workspace) : Prop := w'.calls = w.calls

instance : IsPreorder Workspace SameCalls where
  refl _ := rfl
  trans _ _ _ h h' := h'.trans h

namespace Keeps

variable {R : Workspace → Workspace → Prop} {P : Failure → Prop} {x : Build α} {f : α → Build β}

/-- What a result says about the workspace that comes with it. -/
theorem of_eq {r : Except Failure α} (hr : x.runIn h w = (r, w')) (hR : R w w')
    (hP : ∀ e, r = .error e → P e) : Keeps h R P x w where
  leaves := by rwa [hr]
  fails := by rwa [hr]

/-- What is kept, told of the workspace that a known run leaves. -/
theorem leaves_of_eq {r : Except Failure α} (hx : Keeps h R P x w) (hr : x.runIn h w = (r, w')) :
    R w w' := by
  have hleaves := hx.leaves
  rwa [hr] at hleaves

/-- What failures there are, told of the failure of a known run. -/
theorem fails_of_eq (hx : Keeps h R P x w) (hr : x.runIn h w = (.error e, w')) : P e :=
  hx.fails e (by rw [hr])

variable [IsPreorder Workspace R]

theorem pure (a : α) : Keeps h R P (pure a) w :=
  of_eq runIn_pure (refl_of R w) (by rintro _ ⟨⟩)

theorem throw (he : P e) : Keeps h R P (throw e : Build α) w :=
  of_eq runIn_throw (refl_of R w) fun _ h => Except.error.inj h ▸ he

theorem bind (hx : Keeps h R P x w)
    (hf : ∀ a w₁, x.runIn h w = (.ok a, w₁) → R w w₁ → Keeps h R P (f a) w₁) :
    Keeps h R P (x >>= f) w := by
  rcases hrun : x.runIn h w with ⟨e | a, w₁⟩
  · refine of_eq (by rw [runIn_bind, hrun]) (hx.leaves_of_eq hrun) fun e' he => ?_
    exact Except.error.inj he ▸ hx.fails_of_eq hrun
  · have hw₁ := hx.leaves_of_eq hrun
    have hfa := hf a w₁ hrun hw₁
    exact of_eq (by rw [runIn_bind, hrun]) (trans_of R hw₁ hfa.leaves) hfa.fails

/-- What a computation and its handler keep, both keep together; the handler has to do so for the
failures that can come only. -/
theorem tryCatch {f : Failure → Build α} (hx : Keeps h R P x w)
    (hf : ∀ e w₁, P e → R w w₁ → Keeps h R P (f e) w₁) : Keeps h R P (tryCatch x f) w := by
  rcases hrun : x.runIn h w with ⟨e | a, w₁⟩
  · have hw₁ := hx.leaves_of_eq hrun
    have hfe := hf e w₁ (hx.fails_of_eq hrun) hw₁
    exact of_eq (by rw [runIn_tryCatch, hrun]) (trans_of R hw₁ hfe.leaves) hfe.fails
  · exact of_eq (by rw [runIn_tryCatch, hrun]) (hx.leaves_of_eq hrun) (by rintro _ ⟨⟩)

/-- What every step keeps, a loop keeps. -/
theorem forM {l : List α} {f : α → Build PUnit}
    (hf : ∀ a ∈ l, ∀ w₁, R w w₁ → Keeps h R P (f a) w₁) : Keeps h R P (forM l f) w := by
  induction l generalizing w with
  | nil => exact .pure _
  | cons a l ih =>
    rw [List.forM_cons]
    refine .bind (hf a List.mem_cons_self w (refl_of R w)) fun _ w₁ _ hw₁ =>
      ih fun b hb w₂ hw₂ => ?_
    exact hf b (List.mem_cons_of_mem _ hb) w₂ (trans_of R hw₁ hw₂)

/-- Every step of a loop that comes to its end was taken, in some workspace on the way. -/
theorem exists_step {l : List α} {f : α → Build PUnit}
    (hf : ∀ a ∈ l, ∀ w₁, R w w₁ → Keeps h R P (f a) w₁)
    (hrun : (ForM.forM l f).runIn h w = (.ok ⟨⟩, w')) (ha : a ∈ l) :
    ∃ w₁ w₂, R w w₁ ∧ (f a).runIn h w₁ = (.ok ⟨⟩, w₂) ∧ R w₂ w' := by
  induction l generalizing w with
  | nil => cases ha
  | cons b l ih =>
    rw [List.forM_cons] at hrun
    obtain ⟨_, w₁, hb, hl⟩ := runIn_bind_eq_ok_iff.mp hrun
    have hw₁ : R w w₁ := (hf b List.mem_cons_self w (refl_of R w)).leaves_of_eq hb
    have hrest : ∀ a ∈ l, ∀ w₂, R w₁ w₂ → Keeps h R P (f a) w₂ := fun a ha w₂ hw₂ =>
      hf a (List.mem_cons_of_mem _ ha) w₂ (trans_of R hw₁ hw₂)
    rcases List.mem_cons.mp ha with rfl | ha
    · exact ⟨w, w₁, refl_of R w, hb, (Keeps.forM hrest).leaves_of_eq hl⟩
    · obtain ⟨w₂, w₃, hw₂, hstep, hw₃⟩ := ih hrest hl ha
      exact ⟨w₂, w₃, trans_of R hw₁ hw₂, hstep, hw₃⟩

/-- A known result changes nothing, and fails with its own failure. -/
theorem ofExcept {r : Except Failure α} (hr : ∀ e, r = .error e → P e) :
    Keeps h R P (ofExcept r) w :=
  of_eq runIn_ofExcept (refl_of R w) hr

theorem list {p : Path} (hP : ∀ fault, P (.file fault p.text)) : Keeps h R P (list p) w := by
  refine of_eq runIn_list (refl_of R w) fun e he => ?_
  cases hinside : w.files.list h.here p with
  | ok inside => rw [hinside] at he; cases he
  | error fault => rw [hinside] at he; exact Except.error.inj he ▸ hP fault

theorem isDirectory {p : Path} (hP : ∀ fault, P (.file fault p.text)) :
    Keeps h R P (isDirectory p) w := by
  refine of_eq runIn_isDirectory (refl_of R w) fun e he => ?_
  split at he
  · cases he
  · cases hanswer : w.files.isDirectory h.here p with
    | ok answer => rw [hanswer] at he; cases he
    | error fault => rw [hanswer] at he; exact Except.error.inj he ▸ hP fault

/-- A change of the files has to be kept only where it is done. -/
theorem change {p : Path} {f : FileTree → Location → Except FileFault FileTree}
    (hR : ∀ files, f w.files h.here = .ok files → R w { w with files })
    (hnull : P .nullByte) (hP : ∀ fault, P (.file fault p.text)) : Keeps h R P (change p f) w := by
  have hrun := runIn_change (h := h) (w := w) (p := p) (f := f)
  split at hrun
  · exact of_eq hrun (refl_of R w) fun e he => Except.error.inj he ▸ hnull
  · split at hrun
    · rename_i files hfiles
      exact of_eq hrun (hR files hfiles) nofun
    · exact of_eq hrun (refl_of R w) fun e he => Except.error.inj he ▸ hP _

/-- Writing a text changes one file, or fails. -/
theorem writeText {p : Path} {t : Text}
    (hR : ∀ files, w.files.write h.here p (Utf8.encode t) = .ok files → R w { w with files })
    (hnull : P .nullByte) (hP : ∀ fault, P (.file fault p.text)) :
    Keeps h R P (writeText p t) w := by
  rw [Build.writeText, writeBytes]
  exact .change hR hnull hP

/-! ## Making directories -/

/-- A directory that is there already is no failure, although making it is one. -/
theorem makeDirectory {p : Path}
    (hR : ∀ files, w.files.makeDirectory h.here p = .ok files → R w { w with files })
    (hnull : P .nullByte) (hP : ∀ fault, P (.file fault p.text)) :
    Keeps h R P (makeDirectory p) w := by
  refine .tryCatch (.change hR hnull hP) fun e w₁ he _ => ?_
  split
  · exact .throw he
  · refine .bind (.isDirectory hP) fun isThere w₂ _ _ => ?_
    split
    · exact .throw he
    · exact .pure _
  · exact .throw he

/-- Directories are made only where the names of the path lead on the way. -/
theorem makeDirectoriesWithin {depth : Nat} {p : Path}
    (hR : ∀ q : Path, q.root = p.root → q.names <+: p.names → ∀ w₁ files, R w w₁ →
      w₁.files.makeDirectory h.here q = .ok files → R w₁ { w₁ with files })
    (hnull : P .nullByte) (hP : ∀ fault q, P (.file fault q)) (hdeep : P tooManyMissing) :
    Keeps h R P (makeDirectoriesWithin depth p) w := by
  induction depth using Nat.strongRecOn generalizing p w with
  | ind depth ih =>
    have hself : ∀ w₁, R w w₁ → Keeps h R P (Build.makeDirectory p) w₁ := fun w₁ hw₁ =>
      .makeDirectory (hR p rfl (List.prefix_refl _) w₁ · hw₁) hnull fun fault => hP fault _
    rw [Build.makeDirectoriesWithin.eq_def]
    refine .tryCatch (hself w (refl_of R w)) fun e w₁ he hw₁ => ?_
    split
    · split
      · exact .throw he
      · split
        · exact .throw hdeep
        · refine .bind (ih _ (Nat.lt_succ_self _) fun q hroot hq w₂ files hw₂ => ?_)
            fun _ w₂ _ hw₂ => hself w₂ (trans_of R hw₁ hw₂)
          exact hR q hroot (hq.trans (List.dropLast_prefix _)) w₂ files (trans_of R hw₁ hw₂)
    · exact .throw he

theorem makeDirectories {p : Path}
    (hR : ∀ q : Path, q.root = p.root → q.names <+: p.names → ∀ w₁ files, R w w₁ →
      w₁.files.makeDirectory h.here q = .ok files → R w₁ { w₁ with files })
    (hnull : P .nullByte) (hP : ∀ fault q, P (.file fault q)) (hdeep : P tooManyMissing) :
    Keeps h R P (makeDirectories p) w := by
  have hkeeps : Keeps h R P (Build.makeDirectoriesWithin h.stack.parents p) w :=
    .makeDirectoriesWithin hR hnull hP hdeep
  exact ⟨runIn_makeDirectories ▸ hkeeps.leaves, runIn_makeDirectories ▸ hkeeps.fails⟩

end Keeps

end Build

end ZigNif
