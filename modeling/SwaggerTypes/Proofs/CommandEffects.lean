import SwaggerTypes.CommandLine.Command
import SwaggerTypes.Proofs.StorageLaws
/-!
# Effects of the command

A run that fails changes no file, wherever it fails, and prints nothing, unless it is a print that failed
and left a beginning of its text: the one write or print is the last thing that can go wrong. A run that
converts a document prints the declarations or puts them into the named file, and changes no other one.
All this holds for any readers of the arguments, the options and the document.
-/

namespace SwaggerTypes

open Observed Storage.Lawful

variable {σ α β : Type} {s s' s₀ : σ}

/-! ## Actions that leave no trace -/

section

variable [Observed σ]

def Quiet (act : StateM σ α) : Prop := ∀ s, Unchanged s (act.run s).2

namespace Quiet

theorem pure (a : α) : Quiet (Pure.pure a : StateM σ α) := fun s => .refl s

theorem bind {act : StateM σ α} {next : α → StateM σ β} (h : Quiet act)
    (hnext : ∀ a, Quiet (next a)) : Quiet (act >>= next) := by
  intro s
  rw [StateT.run_bind]
  exact (h s).trans (hnext _ _)

variable [Storage (StateM σ)] [Storage.Lawful σ]

theorem read (path : String) : Quiet (Storage.read path : StateM σ _) := by
  intro s
  rw [read_state]
  exact .refl s

theorem ensureDirectory (path : String) : Quiet (Storage.ensureDirectory path : StateM σ _) := by
  refine bind (makeDirectory_unchanged path) fun answer => ?_
  cases answer with
  | ok => exact pure _
  | error fault =>
      refine bind (bind (read path) fun found => ?_) fun there => pure _
      split <;> exact pure _

theorem ensureDirectories (paths : List String) :
    Quiet (Storage.ensureDirectories paths : StateM σ _) := by
  induction paths with
  | nil => exact pure _
  | cons path outer ih =>
      refine bind (ensureDirectory path) fun answer => ?_
      split
      · refine bind ih fun answer => ?_
        cases answer with
        | ok => exact ensureDirectory path
        | error fault => exact pure _
      · exact pure _

end Quiet

end

/-! ## Actions that may fail -/

namespace CommandLine

/-- Started in a state, an action ends as `Q` says or fails as `F` says. -/
def Ends (s : σ) (act : ExceptT Failure (StateM σ) α) (Q : α → σ → Prop) (F : σ → Prop) : Prop :=
  match act.run.run s with
  | (.ok a, s') => Q a s'
  | (.error _, s') => F s'

namespace Ends

variable {Q : α → σ → Prop} {F F' : σ → Prop}

theorem pure {a : α} (h : Q a s) : Ends s (Pure.pure a) Q F := h

theorem throw {failure : Failure} (h : F s) :
    Ends s (MonadExcept.throw failure : ExceptT Failure (StateM σ) α) Q F := h

theorem lift {act : StateM σ α} (h : Q (act.run s).1 (act.run s).2) :
    Ends s (liftM act : ExceptT Failure (StateM σ) α) Q F := h

theorem bind {act : ExceptT Failure (StateM σ) α} {next : α → ExceptT Failure (StateM σ) β}
    {R : β → σ → Prop} (h : Ends s act Q F) (hnext : ∀ a s', Q a s' → Ends s' (next a) R F) :
    Ends s (act >>= next) R F := by
  unfold Ends at h ⊢
  rw [ExceptT.run_bind, StateT.run_bind]
  cases hrun : act.run.run s with
  | mk answer s' =>
      rw [hrun] at h
      cases answer with
      | ok a => exact hnext a s' h
      | error failure => exact h

theorem mono {act : ExceptT Failure (StateM σ) α} (h : Ends s act Q F) (hF : ∀ s', F s' → F' s') :
    Ends s act Q F' := by
  unfold Ends at h ⊢
  split at h
  · exact h
  · exact hF _ h

end Ends

/-- What holds of each end of an action holds of the report on it. -/
theorem report_run {P : Nat → σ → Prop} {log : String} {act : ExceptT Failure (StateM σ) Ending}
    (h : Ends s act (fun e s' => P e.code s') (P 1)) :
    P ((report log act).run s).1.code ((report log act).run s).2 := by
  unfold Ends at h
  unfold report
  rw [StateT.run_bind]
  cases hrun : act.run.run s with
  | mk answer s' =>
      rw [hrun] at h
      cases answer with
      | ok e => exact h
      | error failure => exact h

/-! ## What a run does -/

variable [Observed σ] [Storage (StateM σ)]

def HasText (s : σ) (path text : String) : Prop :=
  ∃ bytes, ((Storage.read path : StateM σ _).run s).1 = .ok bytes ∧ Text.decode bytes = .ok text

/-- These are the options of a config file, or those that count when none is named. -/
def ConfigAt (readers : Readers) (s : σ) : Option String → Options → Prop
  | none, options => options = {}
  | some path, options => ∃ text settings, HasText s path text ∧
      readers.settings text = some settings ∧ Options.ofValue settings = .ok options

/-- This is the text to convert, if there is one: that of the named file, else the standard input
unless it is empty or comes late. -/
def InputAt (s : σ) : Option String → Option String → Prop
  | some path, found => ∃ text, HasText s path text ∧ found = some text
  | none, some text => input s ≠ .empty ∧ Text.decode (input s) = .ok text
  | none, none => input s = .empty ∨ ((Storage.firstInput : StateM σ _).run s).1 = none

structure Prints (text : String) (s s' : σ) : Prop where
  files : SameFiles s s'
  printed : printed s' = printed s ++ text.toUTF8

/-- Printing a text fails, which may leave a beginning of it, and nothing else happens. -/
structure BreaksOff (text : String) (s s' : σ) : Prop where
  files : SameFiles s s'
  fails : ∃ s₁ fault, Unchanged s s₁ ∧
    (Storage.print text : StateM σ _).run s₁ = (.error fault, s')
  printed : ∃ front rest, text.toUTF8 = front ++ rest ∧ printed s' = printed s ++ front

theorem BreaksOff.unchanged {text : String} (h : BreaksOff text s s') (hwhole : WholePrints σ) :
    Unchanged s s' := by
  obtain ⟨s₁, fault, hs₁, hrun⟩ := h.fails
  exact ⟨h.files, (hwhole text s₁ s' fault hrun).trans hs₁.printed⟩

/-- A text is delivered: printed with no file changed, or put into the named file with nothing printed
and no other file changed. -/
def Delivered (s s' : σ) : Option String → String → Prop
  | none, text => Prints text s s'
  | some path, text =>
    printed s' = printed s ∧ ((Storage.read path : StateM σ _).run s').1 = .ok text.toUTF8 ∧
      ∃ place, content? s' place = some text.toUTF8 ∧
        ∀ other, other ≠ place → content? s' other = content? s other

/-- The options of a config file under those of the command line: what a flag says counts. -/
structure Merged (a : Arguments) (file options : Options) : Prop where
  namespaceName : options.namespaceName = a.namespaceName.or file.namespaceName
  withQuery : options.withQuery = true ↔ a.withQuery = true ∨ file.withQuery = true
  sortProps : options.sortProps = true ↔ a.sortProps = true ∨ file.sortProps = true

theorem merged_options (a : Arguments) (file : Options) : Merged a file (a.options file) where
  namespaceName := by cases h : a.namespaceName <;> simp [Arguments.options, h]
  withQuery := by simp [Arguments.options]
  sortProps := by simp [Arguments.options]

/-- This is what the input gives under the merged options. -/
def Gives (readers : Readers) (a : Arguments) (s : σ) (c : Conversion) : Prop :=
  ∃ file options text, ConfigAt readers s a.config file ∧ Merged a file options ∧
    InputAt s a.input (some text) ∧ convertTextBy readers.document text options = .ok c

/-- A document is converted, and what this gives is delivered. -/
def Converted (readers : Readers) (a : Arguments) (s s' : σ) : Prop :=
  ∃ c, Gives readers a s c ∧ Delivered s s' a.output c.output

/-- Printing fails: that of the help, for want of an input, or that of the declarations. -/
def Unprinted (readers : Readers) (a : Arguments) (s s' : σ) : Prop :=
  (InputAt s a.input none ∧ BreaksOff readers.help s s') ∨
    (a.output = none ∧ ∃ c, Gives readers a s c ∧ BreaksOff c.output s s')

theorem Unprinted.breaksOff {readers : Readers} {a : Arguments} (h : Unprinted readers a s s') :
    ∃ text, BreaksOff text s s' := by
  rcases h with ⟨-, hbreaks⟩ | ⟨-, c, -, hbreaks⟩
  · exact ⟨_, hbreaks⟩
  · exact ⟨_, hbreaks⟩

/-- There is nothing to convert: some text is asked for, which is shown as far as it can be, or there is
no input, and the help is printed. -/
def Explained (readers : Readers) (arguments : List String) (s s' : σ) : Prop :=
  match readers.arguments arguments with
  | .error (.refused _) => False
  | .error (.shown text) => Prints text s s' ∨ BreaksOff text s s'
  | .ok a => InputAt s a.input none ∧ Prints readers.help s s'

def Settled (readers : Readers) (a : Arguments) (s : σ) (code : Nat) (s' : σ) : Prop :=
  (code ≠ 0 ∧ (Unchanged s s' ∨ Unprinted readers a s s')) ∨
    (code = 0 ∧ InputAt s a.input none ∧ Prints readers.help s s') ∨
    (code = 0 ∧ Converted readers a s s')

/-! ## The stages of a run -/

variable [Storage.Lawful σ]

theorem print_cases (text : String) (hs : Unchanged s₀ s) :
    match (Storage.print text : StateM σ _).run s with
    | (.ok (), s') => Prints text s₀ s'
    | (.error _, s') => BreaksOff text s₀ s' := by
  have hfiles := hs.files.trans (print_files text s)
  cases hrun : (Storage.print text : StateM σ _).run s with
  | mk answer s' =>
      rw [hrun] at hfiles
      cases answer with
      | ok => exact ⟨hfiles, by rw [print_ok hrun, hs.printed]⟩
      | error fault =>
          have hprinted := print_fault hrun
          rw [hs.printed] at hprinted
          exact ⟨hfiles, ⟨s, fault, hs, hrun⟩, hprinted⟩

theorem readText_run (path : String) (s : σ) :
    ∃ answer, (Storage.readText path : StateM σ _).run s = (answer, s) ∧
      ∀ text, answer = .ok text → HasText s path text := by
  have hread : (Storage.read path : StateM σ _).run s =
      (((Storage.read path : StateM σ _).run s).1, s) := Prod.ext rfl (read_state path s)
  unfold Storage.readText
  rw [StateT.run_bind, hread]
  cases hanswer : ((Storage.read path : StateM σ _).run s).1 with
  | error fault => exact ⟨_, rfl, nofun⟩
  | ok bytes =>
      refine ⟨_, rfl, fun text htext => ⟨bytes, hanswer, ?_⟩⟩
      cases hdecode : Text.decode bytes with
      | error e =>
          rw [hdecode] at htext
          cases htext
      | ok found =>
          rw [hdecode] at htext
          cases htext
          rfl

theorem readText_ends (path : String) :
    Ends s (liftM (Storage.readText path : StateM σ _))
      (fun answer s' => s' = s ∧ ∀ text, answer = .ok text → HasText s path text)
      (Unchanged s) := by
  obtain ⟨answer, hrun, htext⟩ := readText_run path s
  exact .lift (by rw [hrun]; exact ⟨rfl, htext⟩)

theorem readConfig_ends (readers : Readers) (path : Option String) :
    Ends s (readConfig readers path)
      (fun options s' => s' = s ∧ ConfigAt readers s path options) (Unchanged s) := by
  cases path with
  | none => exact .pure ⟨rfl, rfl⟩
  | some path =>
      refine .bind (readText_ends path) ?_
      rintro found s' ⟨rfl, htext⟩
      cases found with
      | error fault => exact .throw (.refl s')
      | ok text =>
          dsimp only
          cases hsettings : readers.settings text with
          | none => exact .throw (.refl s')
          | some settings =>
              dsimp only
              cases hoptions : Options.ofValue settings with
              | error fault => exact .throw (.refl s')
              | ok options =>
                  exact .pure ⟨rfl, text, settings, htext text rfl, hsettings, hoptions⟩

/-- The first bytes are empty exactly where the input is. -/
theorem isEmpty_first_iff {first : ByteArray}
    (h : (Storage.firstInput : StateM σ _).run s = (some (.ok first), s')) :
    first.isEmpty = true ↔ input s = .empty := by
  obtain ⟨hinput, hnone⟩ := firstInput_ok h
  refine ⟨hnone, fun hempty => ?_⟩
  have hsize := congrArg ByteArray.size (hempty.symm.trans hinput)
  rw [ByteArray.size_append, ByteArray.size_empty] at hsize
  have hzero : first.size = 0 := by omega
  simp [ByteArray.isEmpty, hzero]

theorem readStandardInput_ends :
    Ends s readStandardInput (fun found s' => Unchanged s s' ∧ InputAt s none found)
      (Unchanged s) := by
  refine .bind (Q := fun answer s₁ => Unchanged s s₁ ∧
    (Storage.firstInput : StateM σ _).run s = (answer, s₁))
    (.lift ⟨firstInput_unchanged s, rfl⟩) ?_
  rintro answer s₁ ⟨hs₁, hfirst⟩
  match answer, hfirst with
  | none, hfirst => exact .pure ⟨hs₁, .inr (by rw [hfirst])⟩
  | some (.error fault), _ => exact .throw hs₁
  | some (.ok first), hfirst =>
    dsimp only
    split
    · next hempty => exact .pure ⟨hs₁, .inl ((isEmpty_first_iff hfirst).mp hempty)⟩
    · next hsome =>
      refine .bind (Q := fun answer s₂ => Unchanged s s₂ ∧
        (Storage.moreInput : StateM σ _).run s₁ = (answer, s₂))
        (.lift ⟨hs₁.trans (moreInput_unchanged s₁), rfl⟩) ?_
      rintro answer s₂ ⟨hs₂, hmore⟩
      cases answer with
      | error fault => exact .throw hs₂
      | ok more =>
          have hinput : input s = first ++ more := by
            rw [(firstInput_ok hfirst).1, moreInput_ok hmore]
          dsimp only
          cases hdecode : Text.decode (first ++ more) with
          | error fault => exact .throw hs₂
          | ok text =>
              refine .pure ⟨hs₂, fun hempty => hsome ((isEmpty_first_iff hfirst).mpr hempty), ?_⟩
              rw [hinput, hdecode]

theorem readInput_ends (path : Option String) :
    Ends s (readInput path) (fun found s' => Unchanged s s' ∧ InputAt s path found)
      (Unchanged s) := by
  cases path with
  | none => exact readStandardInput_ends
  | some path =>
      refine .bind (readText_ends path) ?_
      rintro found s' ⟨rfl, htext⟩
      cases found with
      | error fault => exact .throw (.refl s')
      | ok text => exact .pure ⟨.refl s', text, htext text rfl, rfl⟩

theorem printText_ends (failure : FileFault → Failure) (text : String) (hs : Unchanged s₀ s) :
    Ends s (printText failure text) (fun _ s' => Prints text s₀ s') (BreaksOff text s₀) := by
  have hcases := print_cases text hs
  refine .bind (Q := fun answer s' => (Storage.print text : StateM σ _).run s = (answer, s'))
    (.lift rfl) fun answer s' hrun => ?_
  rw [hrun] at hcases
  cases answer with
  | ok => exact .pure hcases
  | error fault => exact .throw hcases

theorem deliver_ends (path : Option String) (text : String) (hs : Unchanged s₀ s) :
    Ends s (deliver path text) (fun _ s' => Delivered s₀ s' path text)
      (fun s' => Unchanged s₀ s' ∨ path = none ∧ BreaksOff text s₀ s') := by
  cases path with
  | none => exact (printText_ends _ text hs).mono fun s' h => .inr ⟨rfl, h⟩
  | some path =>
      have hmade := hs.trans (Quiet.ensureDirectories (Path.directories path) s)
      refine .bind (Q := fun _ s' => Unchanged s₀ s') (.lift hmade) fun answer s₁ hs₁ => ?_
      cases answer with
      | error fault => exact .throw (.inl hs₁)
      | ok =>
          refine .bind (Q := fun answer s' =>
            (Storage.write path text : StateM σ _).run s₁ = (answer, s')) (.lift rfl) ?_
          intro answer s₂ hwrite
          cases answer with
          | error fault => exact .throw (.inl (hs₁.trans (write_fault hwrite)))
          | ok =>
              obtain ⟨hprinted, hread, place, hplace, hothers⟩ := write_ok hwrite
              refine .pure ⟨hprinted.trans hs₁.printed, hread, place, hplace, fun other hother => ?_⟩
              rw [hothers other hother, hs₁.files]

/-! ## The whole run -/

theorem convertFiles_run (readers : Readers) (a : Arguments) (s : σ) :
    Settled readers a s ((convertFiles readers a : StateM σ Ending).run s).1.code
      ((convertFiles readers a : StateM σ Ending).run s).2 := by
  have hfailed : ∀ s', Unchanged s s' ∨ Unprinted readers a s s' → Settled readers a s 1 s' :=
    fun s' h => .inl ⟨by decide, h⟩
  refine report_run (P := Settled readers a s) (Ends.mono ?_ hfailed)
  split
  · exact .throw (.inl (.refl s))
  · refine .bind ((readConfig_ends readers a.config).mono fun _ => .inl) ?_
    rintro file s₁ ⟨rfl, hconfig⟩
    refine .bind ((readInput_ends a.input).mono fun _ => .inl) ?_
    rintro found s₂ ⟨hs₂, hinput⟩
    cases found with
    | none =>
        refine .bind ((printText_ends .noHelp readers.help hs₂).mono fun _ h =>
          .inr (.inl ⟨hinput, h⟩)) fun _ s' hprints => ?_
        exact .pure (.inr (.inl ⟨rfl, hinput, hprints⟩))
    | some text =>
        dsimp only
        cases hconversion : convertTextBy readers.document text (a.options file) with
        | error fault => exact .throw (.inl hs₂)
        | ok c =>
            have hgives : Gives readers a s₁ c :=
              ⟨file, a.options file, text, hconfig, merged_options a file, hinput, hconversion⟩
            have hdelivery : Ends s₂ (do deliver a.output c.output; return {})
                (fun (e : Ending) s' => Settled readers a s₁ e.code s') (Settled readers a s₁ 1) := by
              refine .bind ((deliver_ends a.output c.output hs₂).mono fun s' h => hfailed s' ?_)
                fun _ s' hdelivered => .pure (.inr (.inr ⟨rfl, c, hgives, hdelivered⟩))
              exact h.imp_right fun ⟨houtput, hbreaks⟩ => .inr ⟨houtput, c, hgives, hbreaks⟩
            exact .lift (report_run hdelivery)

/-- A working directory with an empty document, an input that comes late, and little room to print. -/
def emptyDocument (whole : Bool) : Session whole where
  tree := .ofFiles [("api.json", "{}".toUTF8)]
  input := .empty
  arrival := .late
  room := some 3

def terse : Readers := { Readers.builtin with help := "usage" }

/-- Arguments that name a file in a directory to be made, with flags. -/
def writing : List String := ["-s", "-n", "Api", "-o", "types/api.d.ts", "api.json"]

/-- Arguments that name a file in a directory that cannot be made. -/
def blocked : List String := ["-o", "api.json/api.d.ts", "api.json"]

end CommandLine

end SwaggerTypes
