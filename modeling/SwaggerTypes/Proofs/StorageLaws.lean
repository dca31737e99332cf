import SwaggerTypes.Proofs.Resolution
import SwaggerTypes.Storage.Tree
/-!
# Laws of storage

What a program relies on when it works with files and streams: reading changes nothing, making a
directory changes no file, a write happens fully or not at all, and a print that fails leaves a beginning
of its text. The sessions that the command is tested on keep these laws.
-/

namespace SwaggerTypes

/-- What can be seen of a state: the files at their places, what is left of the standard input, and what
is printed. Where a path leads is up to a state. -/
class Observed (σ : Type) where
  Place : Type
  content? : σ → Place → Option ByteArray
  input : σ → ByteArray
  printed : σ → ByteArray

open Observed

section

variable {σ : Type} [Observed σ] {s s' s'' : σ}

def SameFiles (s s' : σ) : Prop := content? s' = content? s

theorem SameFiles.trans (h : SameFiles s s') (h' : SameFiles s' s'') : SameFiles s s'' :=
  Eq.trans h' h

/-- Nothing happens between two states that outlasts a run. -/
structure Unchanged (s s' : σ) : Prop where
  files : SameFiles s s'
  printed : printed s' = printed s

theorem Unchanged.refl (s : σ) : Unchanged s s := ⟨rfl, rfl⟩

theorem Unchanged.trans (h : Unchanged s s') (h' : Unchanged s' s'') : Unchanged s s'' :=
  ⟨h.files.trans h'.files, h'.printed.trans h.printed⟩

end

class Storage.Lawful (σ : Type) [Observed σ] [Storage (StateM σ)] : Prop where
  /-- Reading leaves all as it is. -/
  read_state (path : String) (s : σ) : ((Storage.read path : StateM σ _).run s).2 = s
  /-- Standard input may be used up, but nothing else happens. -/
  firstInput_unchanged (s : σ) : Unchanged s ((Storage.firstInput : StateM σ _).run s).2
  /-- The first bytes are a beginning of the input, and some if there are any. -/
  firstInput_ok {s s' : σ} {first : ByteArray}
    (h : (Storage.firstInput : StateM σ _).run s = (some (.ok first), s')) :
    input s = first ++ input s' ∧ (first.isEmpty → input s = .empty)
  moreInput_unchanged (s : σ) : Unchanged s ((Storage.moreInput : StateM σ _).run s).2
  moreInput_ok {s s' : σ} {more : ByteArray}
    (h : (Storage.moreInput : StateM σ _).run s = (.ok more, s')) : more = input s
  /-- A new directory is no file, nor is one that cannot be made. -/
  makeDirectory_unchanged (path : String) (s : σ) :
    Unchanged s ((Storage.makeDirectory path : StateM σ _).run s).2
  /-- A write that fails writes nothing. -/
  write_fault {path text : String} {s s' : σ} {fault : FileFault}
    (h : (Storage.write path text : StateM σ _).run s = (.error fault, s')) : Unchanged s s'
  /-- A write that succeeds writes the whole text into one file, which is the one that the path leads
  to. -/
  write_ok {path text : String} {s s' : σ}
    (h : (Storage.write path text : StateM σ _).run s = (.ok (), s')) :
    printed s' = printed s ∧ ((Storage.read path : StateM σ _).run s').1 = .ok text.toUTF8 ∧
      ∃ place, content? s' place = some text.toUTF8 ∧
        ∀ other, other ≠ place → content? s' other = content? s other
  print_files (text : String) (s : σ) :
    SameFiles s ((Storage.print text : StateM σ _).run s).2
  /-- A print that fails may have printed a beginning of its text. -/
  print_fault {text : String} {s s' : σ} {fault : FileFault}
    (h : (Storage.print text : StateM σ _).run s = (.error fault, s')) :
    ∃ front rest, text.toUTF8 = front ++ rest ∧ printed s' = printed s ++ front
  print_ok {text : String} {s s' : σ}
    (h : (Storage.print text : StateM σ _).run s = (.ok (), s')) :
    printed s' = printed s ++ text.toUTF8

/-- A print happens fully or not at all, as a write does. -/
def WholePrints (σ : Type) [Observed σ] [Storage (StateM σ)] : Prop :=
  ∀ (text : String) (s s' : σ) (fault : FileFault),
    (Storage.print text : StateM σ _).run s = (.error fault, s') → printed s' = printed s

namespace Text

/-- Only a text that ends with the separator has an empty piece at its end. -/
theorem getLast?_pieces {separator : Char} {cs : List Char}
    (h : (pieces separator cs).getLast? = some []) : cs = [] ∨ cs.getLast? = some separator := by
  induction cs with
  | nil => exact .inl rfl
  | cons c cs ih =>
      right
      rw [pieces, List.foldr_cons] at h
      change (consPiece separator c (pieces separator cs)).getLast? = some [] at h
      match hpieces : pieces separator cs with
      | [] =>
          rw [hpieces] at h
          cases h
      | piece :: more =>
          rw [hpieces] at h ih
          by_cases hc : c = separator
          · rw [consPiece, if_pos hc, List.getLast?_cons_cons] at h
            rcases ih h with rfl | hlast
            · exact congrArg some hc
            · rw [List.getLast?_cons, hlast]
              rfl
          · rw [consPiece, if_neg hc] at h
            match more with
            | [] => cases h
            | next :: rest =>
                rw [List.getLast?_cons_cons] at h
                rw [List.getLast?_cons_cons] at ih
                rcases ih h with rfl | hlast
                · cases hpieces
                · rw [List.getLast?_cons, hlast]
                  rfl

end Text

/-- The last name of a path is not empty, unless the path is or it ends with a slash. -/
theorem Path.names_eq_concat {path : String} (hne : path ≠ "")
    (hslash : path.toList.getLast? ≠ some '/') :
    ∃ outer name, names path = outer ++ [name] ∧ name ≠ "" := by
  rcases List.eq_nil_or_concat (Text.pieces '/' path.toList) with hnil | ⟨front, last, hpieces⟩
  · cases hcs : path.toList with
    | nil => exact absurd (String.toList_eq_nil_iff.mp hcs) hne
    | cons c cs =>
        rw [hcs, Text.pieces, List.foldr_cons] at hnil
        unfold Text.consPiece at hnil
        split at hnil
        · cases hnil
        · split at hnil <;> cases hnil
  · refine ⟨front.map String.ofList, String.ofList last, ?_, fun hlast => ?_⟩
    · rw [names, Text.splitAt, hpieces, List.concat_eq_append, List.map_append, List.map_singleton]
    · have hempty : last = [] := by simpa using congrArg String.toList hlast
      subst hempty
      have hend : (Text.pieces '/' path.toList).getLast? = some [] := by simp [hpieces]
      rcases Text.getLast?_pieces hend with hnil | hend
      · exact hne (String.toList_eq_nil_iff.mp hnil)
      · exact hslash hend

namespace Tree

variable {t t' : Tree} {place other : Place} {entry : TreeEntry}

theorem lookup_filter_ne {α : Type} (h : other ≠ place) (entries : List (Place × α)) :
    (entries.filter fun e => e.1 ≠ place).lookup other = entries.lookup other := by
  induction entries with
  | nil => rfl
  | cons e entries ih =>
      obtain ⟨key, a⟩ := e
      by_cases hkey : key = place
      · rw [List.filter_cons_of_neg (by simp [hkey]), ih, List.lookup_cons,
          beq_eq_false_iff_ne.mpr (hkey ▸ h)]
      · rw [List.filter_cons_of_pos (by simp [hkey]), List.lookup_cons, List.lookup_cons, ih]

theorem get?_put (hplace : isOutside place = false) :
    (t.put place entry).get? other = if other = place then some entry else t.get? other := by
  by_cases h : other = place
  · subst h
    simp [get?, put, hplace]
  · simp only [get?, put, if_neg h, List.lookup_cons, beq_eq_false_iff_ne.mpr h, lookup_filter_ne h]

/-- Where no directory is, there is the working directory or a place in it. -/
theorem isOutside_of_get? (h : t.get? place ≠ some .directory) : isOutside place = false := by
  cases hplace : isOutside place with
  | false => rfl
  | true => exact absurd (by rw [get?, hplace]; rfl) h

/-! ## Writing -/

theorem split_eq_ok {path name : String} {directory : Place}
    (h : t.split path = .ok (directory, name)) :
    path ≠ "" ∧ t.get? directory = some .directory ∧
      let names := (Path.names path).reverse.dropWhile (· = "")
      t.walk (origin path) (names.drop 1).reverse = .ok directory ∧ name = names.headD "." := by
  unfold split at h
  split at h
  · cases h
  · next hne =>
    obtain ⟨found, hwalk, hrest⟩ := bind_eq_ok.mp h
    split at hrest
    · next hdirectory =>
      cases hrest
      exact ⟨hne, hdirectory, hwalk, rfl⟩
    · cases hrest
    · cases hrest

theorem write_eq_ok {path : String} {content : ByteArray} (h : t.write path content = .ok t') :
    ∃ directory name, t.split path = .ok (directory, name) ∧ name ≠ "." ∧ name ≠ ".." ∧
      path.toList.getLast? ≠ some '/' ∧ t.get? (name :: directory) ≠ some .directory ∧
      t' = t.put (name :: directory) (.file content) := by
  obtain ⟨⟨directory, name⟩, hsplit, hrest⟩ := bind_eq_ok.mp h
  dsimp only at hrest
  split at hrest
  · cases hrest
  · next hname =>
    split at hrest
    · cases hrest
    · next hplace =>
      cases hrest
      simp only [Bool.or_eq_true, decide_eq_true_eq, not_or] at hname
      exact ⟨directory, name, hsplit, hname.1.1, hname.1.2, hname.2, hplace, rfl⟩

/-- A walk is as before where it passes directories only and something else was put. -/
theorem walk_put {names : List String} {start last : Place} (hplace : t.get? place ≠ some .directory)
    (h : t.walk start names = .ok last) : (t.put place entry).walk start names = .ok last := by
  induction names generalizing start with
  | nil => exact h
  | cons name names ih =>
      unfold walk at h ⊢
      split at h
      · next hstart =>
        have hne : start ≠ place := fun heq => hplace (heq ▸ hstart)
        rw [get?_put (isOutside_of_get? hplace), if_neg hne, hstart]
        exact ih h
      · cases h
      · cases h

theorem walk_concat {names : List String} {name : String} {start last : Place}
    (h : t.walk start names = .ok last) (hlast : t.get? last = some .directory) :
    t.walk start (names ++ [name]) = .ok (step last name) := by
  induction names generalizing start with
  | nil =>
      cases h
      rw [List.nil_append, walk, hlast]
      rfl
  | cons first names ih =>
      rw [List.cons_append]
      unfold walk at h ⊢
      split at h
      · exact ih h
      · cases h
      · cases h

/-- The file that was written is the one at the path. -/
theorem read_write {path : String} {content : ByteArray} (h : t.write path content = .ok t') :
    t'.read path = .ok content := by
  obtain ⟨directory, name, hsplit, hdot, hdots, hslash, hplace, rfl⟩ := write_eq_ok h
  obtain ⟨hne, hdirectory, hwalk, hname⟩ := split_eq_ok hsplit
  obtain ⟨outer, last, hnames, hlast⟩ := Path.names_eq_concat hne hslash
  have hreverse : (Path.names path).reverse.dropWhile (· = "") = last :: outer.reverse := by
    rw [hnames, List.reverse_append, List.reverse_singleton, List.singleton_append,
      List.dropWhile_cons_of_neg (by simp [hlast])]
  rw [hreverse] at hwalk hname
  obtain rfl : name = last := hname
  rw [List.drop_one, List.tail_cons, List.reverse_reverse] at hwalk
  have hstep : step directory name = name :: directory := by
    simp [step, hlast, hdot, hdots]
  have houtside := isOutside_of_get? hplace
  have hdirectory' : (t.put (name :: directory) (.file content)).get? directory =
      some .directory := by
    rw [get?_put houtside, if_neg (List.cons_ne_self name directory).symm, hdirectory]
  have hfind : (t.put (name :: directory) (.file content)).find path = .ok (.file content) := by
    rw [find, if_neg hne, hnames, walk_concat (walk_put hplace hwalk) hdirectory', hstep]
    simp [bind, Except.bind, get?_put houtside]
    rfl
  rw [read, hfind]
  rfl

def content? (t : Tree) (place : Place) : Option ByteArray :=
  match t.get? place with
  | some (.file content) => some content
  | _ => none

theorem content?_write {path : String} {content : ByteArray} (h : t.write path content = .ok t') :
    ∃ place, t'.content? place = some content ∧
      ∀ other, other ≠ place → t'.content? other = t.content? other := by
  obtain ⟨directory, name, -, -, -, -, hplace, rfl⟩ := write_eq_ok h
  have houtside := isOutside_of_get? hplace
  refine ⟨name :: directory, ?_, fun other hother => ?_⟩
  · rw [content?, get?_put houtside, if_pos rfl]
  · rw [content?, get?_put houtside, if_neg hother, content?]

theorem content?_makeDirectory {path : String} (h : t.makeDirectory path = .ok t') :
    t'.content? = t.content? := by
  obtain ⟨⟨directory, name⟩, -, hrest⟩ := bind_eq_ok.mp h
  dsimp only at hrest
  split at hrest
  · cases hrest
  · split at hrest
    · cases hrest
    · next hfree =>
      cases hrest
      have hnone : t.get? (name :: directory) = none := by simpa using hfree
      funext other
      rw [content?, get?_put (isOutside_of_get? (by rw [hnone]; exact nofun)), content?]
      by_cases hother : other = name :: directory
      · rw [if_pos hother, hother, hnone]
      · rw [if_neg hother]

end Tree

/-! ## Sessions as storage -/

namespace Session

variable {whole : Bool}

instance : Observed (Session whole) where
  Place := Tree.Place
  content? s := s.tree.content?
  input s := s.input
  printed s := s.printed.toUTF8

theorem change_run (f : Tree → Except FileFault Tree) (s : Session whole) :
    (change f).run s = match f s.tree with
      | .ok tree => (.ok (), { s with tree })
      | .error fault => (.error fault, s) := by
  unfold change
  simp only [StateT.run_bind, StateT.run_get, pure_bind]
  cases f s.tree <;> rfl

theorem makeDirectory_run (path : String) (s : Session whole) :
    (Storage.makeDirectory path : StateM (Session whole) _).run s =
      match s.tree.makeDirectory path with
      | .ok tree => (.ok (), { s with tree })
      | .error fault => (.error fault, s) := change_run _ s

theorem write_run (path text : String) (s : Session whole) :
    (Storage.write path text : StateM (Session whole) _).run s =
      match s.tree.write path text.toUTF8 with
      | .ok tree => (.ok (), { s with tree })
      | .error fault => (.error fault, s) := change_run _ s

theorem fits_eq (whole : Bool) (room : Option Nat) (text : String) :
    ∃ rest, text = (fits whole room text).1 ++ rest ∧
      ((fits whole room text).2 = true → rest = "") := by
  unfold fits
  split
  · exact ⟨"", by simp⟩
  · next n =>
    split
    · exact ⟨"", by simp⟩
    · split
      · exact ⟨text, by simp⟩
      · refine ⟨String.ofList (text.toList.drop n), ?_, nofun⟩
        rw [← String.ofList_append, List.take_append_drop, String.ofList_toList]

theorem print_run (text : String) (s : Session whole) :
    (Storage.print text : StateM (Session whole) _).run s =
      (if (fits whole s.room text).2 then .ok () else .error fullFault,
        { s with
          printed := s.printed ++ (fits whole s.room text).1
          room := s.room.map fun n => n - (fits whole s.room text).1.length }) := rfl

theorem firstInput_run (s : Session whole) :
    (Storage.firstInput : StateM (Session whole) _).run s = match s.arrival with
      | .late => (none, s)
      | .broken true => (some (.error ioFault), s)
      | _ => (some (.ok (s.input.extract 0 1)), { s with input := s.input.extract 1 s.input.size }) := by
  obtain ⟨desk, arrival, room, printed⟩ := s
  cases arrival with
  | broken first => cases first <;> rfl
  | _ => rfl

theorem moreInput_run (s : Session whole) :
    (Storage.moreInput : StateM (Session whole) _).run s = match s.arrival with
      | .broken _ => (.error ioFault, s)
      | _ => (.ok (s.input.extract 0 s.input.size),
          { s with input := s.input.extract s.input.size s.input.size }) := by
  obtain ⟨desk, arrival, room, printed⟩ := s
  cases arrival <;> rfl

instance : Storage.Lawful (Session whole) where
  read_state _ _ := rfl
  firstInput_unchanged s := by
    rw [firstInput_run]
    split <;> exact ⟨rfl, rfl⟩
  firstInput_ok {s s' first} h := by
    rw [firstInput_run] at h
    split at h
    · cases h
    · cases h
    · cases h
      refine ⟨?_, fun hempty => ?_⟩
      · change s.input = _ ++ s.input.extract 1 s.input.size
        simp [ByteArray.extract_append_extract]
      · have hsize : min 1 s.input.size = 0 := by simpa [ByteArray.isEmpty] using hempty
        have hinput : s.input.size = 0 := by omega
        exact ByteArray.size_eq_zero_iff.mp hinput
  moreInput_unchanged s := by
    rw [moreInput_run]
    split <;> exact ⟨rfl, rfl⟩
  moreInput_ok {s s' more} h := by
    rw [moreInput_run] at h
    split at h
    · cases h
    · cases h
      exact ByteArray.extract_zero_size
  makeDirectory_unchanged path s := by
    rw [makeDirectory_run]
    split
    · next tree htree => exact ⟨Tree.content?_makeDirectory htree, rfl⟩
    · exact .refl s
  write_fault {path text s s' fault} h := by
    rw [write_run] at h
    split at h
    · cases h
    · cases h
      exact .refl s
  write_ok {path text s s'} h := by
    rw [write_run] at h
    split at h
    · next tree htree =>
      cases h
      exact ⟨rfl, Tree.read_write htree, Tree.content?_write htree⟩
    · cases h
  print_files _ _ := rfl
  print_fault {text s s' fault} h := by
    rw [print_run] at h
    obtain ⟨rest, htext, -⟩ := fits_eq whole s.room text
    obtain ⟨-, rfl⟩ := Prod.mk.inj h
    refine ⟨_, rest.toUTF8, ?_, String.toByteArray_append⟩
    exact (congrArg String.toUTF8 htext).trans String.toByteArray_append
  print_ok {text s s'} h := by
    rw [print_run] at h
    obtain ⟨rest, htext, hrest⟩ := fits_eq whole s.room text
    split at h
    · next hall =>
      cases h
      rw [hrest hall, String.append_empty] at htext
      rw [← htext]
      exact String.toByteArray_append
    · cases h

theorem fits_whole {room : Option Nat} {text : String} (h : (fits true room text).2 ≠ true) :
    (fits true room text).1 = "" := by
  unfold fits at h ⊢
  split at h
  · exact absurd rfl h
  · split at h
    · exact absurd rfl h
    · next hlong => simp [hlong]

theorem wholePrints : WholePrints (Session true) := by
  intro text s s' fault h
  rw [print_run] at h
  split at h
  · cases h
  · next hpart =>
    obtain ⟨-, rfl⟩ := Prod.mk.inj h
    change (s.printed ++ (fits true s.room text).1).toUTF8 = s.printed.toUTF8
    rw [fits_whole hpart, String.append_empty]

end Session

end SwaggerTypes
