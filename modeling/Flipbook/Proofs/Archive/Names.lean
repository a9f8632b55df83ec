import Mathlib.Tactic.MkIffOfInductiveProp
import Flipbook.Archive.Rechunk
import Flipbook.Proofs.Archive.Characters
import Flipbook.Proofs.Number.Natural

/-!
# Names that read back

A name tells the number of a file and, up to what the naming leaves out, the file. For the listing
of the flash drive the type, the label and the size must not run into each other, and numbers must
fit into their column.

## Main definitions

* `FrameFile.Listable`: the files that the flash drive can list.
* `ListedFields`, `listing`: a type and a label as it lists them, and the columns of a listing.
* `Naming.Names`, `Naming.Accepts`: the files, and the frame files, that a naming can be used for.
* `Naming.kept`: what remains of a file when it is read back.

## Main results

* `readFlashName_flashName`, `readSequenceName_sequenceName`: reading undoes writing;
* `readArchiveFile_of_format`: a stored file is read with its number.
-/

namespace Flipbook

/-- A file that the flash drive can list: a type of one to seven capital letters, a label of one line
without slashes and without blanks at its ends, and a size that is a number of its own. -/
@[mk_iff]
structure FrameFile.Listable (file : FrameFile) : Prop where
  /-- There is a type. -/
  type_ne : file.type.toList ≠ []
  /-- The type leaves room for a blank in its column. -/
  type_length : file.type.toList.length ≤ 7
  /-- The type is written in capital letters. -/
  type_upper : file.type.toList.all Char.isUpper = true
  /-- The label does not start with a blank. -/
  label_head : file.label.toList.head?.any isBlank = false
  /-- The label does not end with a blank. -/
  label_last : file.label.toList.getLast?.any isBlank = false
  /-- The label is no path. -/
  label_slash : '/' ∉ file.label.toList
  /-- The label is on one line. -/
  label_line : file.label.toList.any isLineEnd = false
  /-- The size is exact. -/
  size_lt : file.data.length < Binary64.exactBound

instance (file : FrameFile) : Decidable file.Listable :=
  decidable_of_iff _ (FrameFile.listable_iff file).symm

namespace FrameFile.Listable

variable {file : FrameFile} (h : file.Listable)

include h

theorem upper : ∀ c ∈ file.type.toList, c.isUpper = true :=
  List.all_eq_true.mp h.type_upper

theorem head : ∀ c ∈ file.label.toList.head?, isBlank c = false := by
  intro c hc
  have hany := h.label_head
  rw [Option.mem_def.mp hc] at hany
  exact hany

theorem last : ∀ c ∈ file.label.toList.getLast?, isBlank c = false := by
  intro c hc
  have hany := h.label_last
  rw [Option.mem_def.mp hc] at hany
  exact hany

theorem slash : ∀ c ∈ file.label.toList, c ≠ '/' :=
  fun _ hc heq => h.label_slash (heq ▸ hc)

theorem line : ∀ c ∈ file.label.toList, isLineEnd c = false := by
  intro c hc
  exact Bool.eq_false_iff.mpr (List.any_eq_false.mp h.label_line c hc)

end FrameFile.Listable

/-- The files that a naming can name: those that the flash drive can list, or those with an extension
of letters and digits. -/
def Naming.Names (naming : Naming) (file : FrameFile) : Prop :=
  match naming with
  | flashDrive => file.Listable
  | sequence => file.extension.toList ≠ [] ∧ file.extension.toList.all Char.isAlphanum = true

instance (naming : Naming) (file : FrameFile) : Decidable (naming.Names file) :=
  match naming with
  | .flashDrive => inferInstanceAs (Decidable file.Listable)
  | .sequence => inferInstanceAs (Decidable (_ ∧ _))

/-- The frame files of a naming. On the flash drive they must not look like a player. -/
def Naming.Accepts (naming : Naming) (file : FrameFile) : Prop :=
  naming.Names file ∧ (naming = .flashDrive → isPlayerFile file = false)

instance (naming : Naming) (file : FrameFile) : Decidable (naming.Accepts file) :=
  inferInstanceAs (Decidable (_ ∧ _))

/-- What remains of a file that is read back: the flash drive knows no extension, and a sequence
neither type nor label. -/
def Naming.kept (naming : Naming) (file : FrameFile) : FrameFile :=
  match naming with
  | flashDrive => { file with extension := "" }
  | sequence => { file with type := "BINARY", label := "" }

/-- The numbers that fit into the first column of the listing, with a blank behind them. -/
def listedBound : Nat := 1000000

/-- Numbers that can be listed are far below `2 ^ 53`. -/
theorem listedBound_lt : listedBound < Binary64.exactBound := by decide

/-- The name of a file that is read back is the same again. -/
theorem Naming.format_kept (naming : Naming) (number : Binary64) (file : FrameFile) :
    naming.format number (naming.kept file) = naming.format number file := by
  cases naming <;> rfl

/-- Reading back keeps the contents. -/
theorem Naming.kept_data (naming : Naming) (file : FrameFile) :
    (naming.kept file).data = file.data := by
  cases naming <;> rfl

/-- No frame file is taken for a player when it is read back. -/
theorem Naming.isPlayerFile_kept {naming : Naming} {file : FrameFile} (h : naming.Accepts file) :
    isPlayerFile (naming.kept file) = false := by
  cases naming with
  | flashDrive => exact h.2 rfl
  | sequence => simp [kept, isPlayerFile]

/-- A type of one or more capital letters, and a label on one line without blanks at its ends. -/
structure ListedFields (type label : List Char) : Prop where
  type_ne : type ≠ []
  type_upper : ∀ c ∈ type, c.isUpper = true
  label_head : ∀ c ∈ label.head?, isBlank c = false
  label_last : ∀ c ∈ label.getLast?, isBlank c = false
  label_line : ∀ c ∈ label, isLineEnd c = false

/-- A listing, column by column: spaces fill up the columns of the number, the type and the label,
and one more stands in front of the size. -/
def listing (number type label size : List Char) : List Char :=
  number ++ (List.replicate (7 - number.length) ' ' ++ (type ++
    (List.replicate (8 - type.length) ' ' ++ (label ++
      (List.replicate (21 - length16 label + 1) ' ' ++ size)))))

theorem FrameFile.Listable.fields {file : FrameFile} (h : file.Listable) :
    ListedFields file.type.toList file.label.toList :=
  ⟨h.type_ne, h.upper, h.head, h.last, h.line⟩

section Listing

variable {n : Nat} {file : FrameFile}

/-- Spaces as far as a column is not filled. -/
theorem padRight16_eq (width : Nat) (cs : List Char) :
    padRight16 width cs = cs ++ List.replicate (width - length16 cs) ' ' :=
  rfl

/-- The name of a listed file, by its columns. -/
theorem flashName_eq_listing {type label : String} (hpos : 0 < n) (hn : n < Binary64.exactBound)
    (hfields : ListedFields type.toList label.toList) (s : Nat) :
    flashName (.ofNat n) type label (.finite s) = .ok (String.ofList
      (listing (Nat.toDigits 10 n) type.toList label.toList (Binary64.finite s).text.toList)) := by
  have hone : (Binary64.ofNat n).lt 1 = false := by
    rw [show (1 : Binary64) = .ofNat 1 from rfl, Binary64.lt_ofNat (Nat.le_of_lt hn) (by decide)]
    exact decide_eq_false (by omega)
  have hsize : (Binary64.finite (s : Rat)).lt 0 = false := by
    rw [show (0 : Binary64) = .finite (0 : Nat) from Binary64.ofNat_eq_finite (by decide),
      Binary64.lt, decide_eq_false_iff_not, Rat.natCast_lt_natCast]
    exact Nat.not_lt_zero s
  rw [flashName, Binary64.isInteger_ofNat (Nat.le_of_lt hn), hone, hsize, if_neg (by simp),
    Binary64.text_ofNat hn, padRight16_eq, padRight16_eq, padRight16_eq,
    length16_of_digits (isDigit_toDigits n), length16_of_upper hfields.type_upper, listing]
  simp only [List.append_assoc, List.replicate_succ', List.cons_append, List.nil_append]

/-- The name of a file that can be listed, with the digits of its size. -/
theorem flashName_ofNat (hpos : 0 < n) (hn : n < listedBound) (h : file.Listable) :
    flashName (.ofNat n) file.type file.label (.ofNat file.data.length) =
      .ok (String.ofList (Nat.toDigits 10 n ++
        (List.replicate (7 - (Nat.toDigits 10 n).length) ' ' ++ (file.type.toList ++
          (List.replicate (8 - file.type.toList.length) ' ' ++ (file.label.toList ++
            (List.replicate (21 - length16 file.label.toList + 1) ' ' ++
              Nat.toDigits 10 file.data.length))))))) := by
  rw [← Binary64.text_ofNat h.size_lt, Binary64.ofNat_eq_finite (Nat.le_of_lt h.size_lt)]
  exact flashName_eq_listing hpos (Nat.lt_trans hn listedBound_lt) h.fields file.data.length

/-- A run of spaces that is not empty begins with a blank, which is none of the characters that a
column ends with. -/
theorem head?_spaces {k : Nat} (hk : 0 < k) (rest : List Char) {p : Char → Bool}
    (hp : p ' ' = false) : ∀ c ∈ (List.replicate k ' ' ++ rest).head?, p c = false := by
  obtain ⟨k, rfl⟩ := Nat.exists_eq_succ_of_ne_zero (Nat.pos_iff_ne_zero.mp hk)
  intro c hc
  rw [List.replicate_succ, List.cons_append, List.head?_cons, Option.mem_some_iff] at hc
  rw [← hc, hp]

/-- Every character of a run of spaces is a blank. -/
theorem isBlank_spaces (k : Nat) : ∀ c ∈ List.replicate k ' ', isBlank c = true := by
  intro c hc
  rw [List.eq_of_mem_replicate hc]
  decide

/-- A label is told from the size behind it. -/
theorem splitLabel_append {label size : List Char} {k : Nat} (hlabel : label ≠ [])
    (hlast : ∀ c ∈ label.getLast?, isBlank c = false) (hline : ∀ c ∈ label, isLineEnd c = false)
    (hsize : size ≠ []) (hdigit : ∀ c ∈ size, c.isDigit = true) (hk : 0 < k) :
    splitLabel (label ++ (List.replicate k ' ' ++ size)) = some (label, size) := by
  -- The pattern matches from the end: the size, the blanks, and the label are read backwards.
  have hreverse : (label ++ (List.replicate k ' ' ++ size)).reverse =
      size.reverse ++ (List.replicate k ' ' ++ label.reverse) := by
    simp only [List.reverse_append, List.reverse_replicate, List.append_assoc]
  have hfirst := splitRun_append (p := Char.isDigit) _
    (fun c hc => hdigit c (List.mem_reverse.mp hc)) (head?_spaces hk label.reverse (by decide))
  have hsecond := splitRun_append (p := isBlank) label.reverse (isBlank_spaces k)
    (by rwa [List.head?_reverse])
  have hgap : (List.replicate k ' ').isEmpty = false := by
    rw [List.isEmpty_eq_false_iff, ne_eq, List.replicate_eq_nil_iff]
    omega
  have hends : (label.reverse.any isLineEnd) = false := by
    rw [List.any_eq_false]
    exact fun c hc => by simp [hline c (List.mem_reverse.mp hc)]
  rw [splitLabel, hreverse, hfirst]
  dsimp only
  rw [hsecond]
  dsimp only
  rw [hgap, hends, if_neg (by simp [hsize, hlabel]), List.reverse_reverse, List.reverse_reverse]

/-- A size alone has no label in front of it. -/
theorem splitLabel_digits {size : List Char} (hdigit : ∀ c ∈ size, c.isDigit = true) :
    splitLabel size = none := by
  rw [splitLabel, splitRun_self fun c hc => hdigit c (List.mem_reverse.mp hc)]
  simp [splitRun]

/-- The blanks behind the type, and what they separate from it, give back label and size. -/
theorem splitLabelAfter_columns {label size : List Char} {j k : Nat} (hk : 0 < k) (hj : 0 < j)
    (hhead : ∀ c ∈ label.head?, isBlank c = false)
    (hlast : ∀ c ∈ label.getLast?, isBlank c = false) (hline : ∀ c ∈ label, isLineEnd c = false)
    (hsize : size ≠ []) (hdigit : ∀ c ∈ size, c.isDigit = true) :
    ∃ gap rest, splitRun isBlank (List.replicate j ' ' ++ (label ++ (List.replicate k ' ' ++ size)))
      = (gap, rest) ∧ gap ≠ [] ∧ splitLabelAfter gap rest = some (label, size) := by
  by_cases hlabel : label = []
  · -- Without a label the blanks of two columns run together.
    subst hlabel
    refine ⟨List.replicate (j + k) ' ', size, ?_, ?_, ?_⟩
    · rw [List.nil_append, ← List.append_assoc, List.replicate_append_replicate]
      refine splitRun_append _ (isBlank_spaces _) fun c hc => ?_
      exact isBlank_of_isDigit (hdigit c (List.mem_of_mem_head? hc))
    · rw [ne_eq, List.replicate_eq_nil_iff]
      omega
    · have hgap : 2 ≤ (List.replicate (j + k) ' ').length := by
        rw [List.length_replicate]
        omega
      rw [splitLabelAfter, splitLabel_digits hdigit]
      simp only [decide_eq_true hgap, List.all_eq_true.mpr hdigit, Bool.true_and, Bool.and_true,
        Bool.not_eq_true', List.isEmpty_eq_false_iff, ne_eq, hsize, not_false_eq_true, if_true]
  · refine ⟨List.replicate j ' ', label ++ (List.replicate k ' ' ++ size), ?_, ?_, ?_⟩
    · refine splitRun_append _ (isBlank_spaces j) ?_
      rwa [List.head?_append_of_ne_nil _ hlabel]
    · rw [ne_eq, List.replicate_eq_nil_iff]
      omega
    · rw [splitLabelAfter, splitLabel_append hlabel hlast hline hsize hdigit hk]

/-- Columns that do not run into each other are read one by one. -/
theorem readFlashName_columns {number type label size : List Char} {i j k : Nat}
    (hi : 0 < i) (hj : 0 < j) (hk : 0 < k)
    (hnumber : number ≠ []) (hnumbers : ∀ c ∈ number, c.isDigit = true)
    (htype : type ≠ []) (htypes : ∀ c ∈ type, c.isUpper = true)
    (hhead : ∀ c ∈ label.head?, isBlank c = false)
    (hlast : ∀ c ∈ label.getLast?, isBlank c = false) (hline : ∀ c ∈ label, isLineEnd c = false)
    (hsize : size ≠ []) (hsizes : ∀ c ∈ size, c.isDigit = true) :
    readFlashName (String.ofList (number ++ (List.replicate i ' ' ++ (type ++
        (List.replicate j ' ' ++ (label ++ (List.replicate k ' ' ++ size))))))) = some
      { number := digitsNumber number, type := String.ofList type, label := String.ofList label,
        extension := "", size := some (digitsNumber size) } := by
  obtain ⟨gap, rest, hgap, hne, hsplit⟩ :=
    splitLabelAfter_columns hk hj hhead hlast hline hsize hsizes
  have htypeHead : ∀ tail, ∀ c ∈ (type ++ tail).head?, isBlank c = false := by
    intro tail c hc
    rw [List.head?_append_of_ne_nil _ htype] at hc
    exact isBlank_of_isUpper (htypes c (List.mem_of_mem_head? hc))
  have hblank : i ≠ 0 := by omega
  rw [readFlashName, String.toList_ofList,
    splitRun_append _ hnumbers (head?_spaces hi _ (by decide))]
  dsimp only
  rw [splitRun_append _ (isBlank_spaces i) (htypeHead _)]
  dsimp only
  rw [splitRun_append _ htypes (head?_spaces hj _ (by decide))]
  dsimp only
  rw [hgap]
  dsimp only
  rw [if_neg (by simp [hnumber, hblank, htype, hne]), hsplit, Option.map_some]

/-- Reading a listing gives back everything that it was made of. -/
theorem readFlashName_flashName {name : String} (hpos : 0 < n) (hn : n < listedBound)
    (h : file.Listable)
    (hname : flashName (.ofNat n) file.type file.label (.ofNat file.data.length) = .ok name) :
    readFlashName name = some
      { number := .ofNat n, type := file.type, label := file.label, extension := "",
        size := some (.ofNat file.data.length) } := by
  have hdigits : (Nat.toDigits 10 n).length ≤ 6 :=
    (Nat.length_toDigits_le_iff (by decide) (by decide)).mpr hn
  have htype := h.type_length
  rw [flashName_ofNat hpos hn h] at hname
  rw [← Except.ok.inj hname, readFlashName_columns (by omega) (by omega) (Nat.succ_pos _)
    Nat.toDigits_ne_nil (isDigit_toDigits n) h.type_ne h.upper h.head h.last
    h.line Nat.toDigits_ne_nil (isDigit_toDigits _),
    digitsNumber_digits (Nat.le_of_lt (Nat.lt_trans hn listedBound_lt)),
    digitsNumber_digits (Nat.le_of_lt h.size_lt), String.ofList_toList, String.ofList_toList]

/-- No listing contains a slash. -/
theorem ne_slash_of_mem_flashName {name : String} (hpos : 0 < n) (hn : n < listedBound)
    (h : file.Listable)
    (hname : flashName (.ofNat n) file.type file.label (.ofNat file.data.length) = .ok name) :
    ∀ c ∈ name.toList, c ≠ '/' := by
  have hspaces : ∀ k, ∀ c ∈ List.replicate k ' ', c ≠ '/' := by
    intro k c hc
    rw [List.eq_of_mem_replicate hc]
    decide
  rw [flashName_ofNat hpos hn h] at hname
  rw [← Except.ok.inj hname, String.toList_ofList]
  simp only [List.forall_mem_append]
  exact ⟨fun c hc => ne_slash_of_isDigit (isDigit_toDigits n c hc), hspaces _,
    fun c hc => ne_slash_of_isUpper (h.upper c hc), hspaces _, h.slash, hspaces _,
    fun c hc => ne_slash_of_isDigit (isDigit_toDigits _ c hc)⟩

end Listing

section Sequence

variable {n : Nat} {extension : String}

/-- The digits of a number in the name of a file of a sequence. -/
def sequenceDigits (n : Nat) : List Char :=
  List.replicate (4 - (Nat.toDigits 10 n).length) '0' ++ Nat.toDigits 10 n

/-- Zeros in front of digits are digits. -/
theorem isDigit_sequenceDigits (n : Nat) : ∀ c ∈ sequenceDigits n, c.isDigit = true := by
  rw [sequenceDigits, List.forall_mem_append]
  refine ⟨fun c hc => ?_, isDigit_toDigits n⟩
  rw [List.eq_of_mem_replicate hc]
  decide

/-- The name of a file of a sequence, part by part. -/
theorem sequenceName_toList (hn : n < Binary64.exactBound) :
    (sequenceName (.ofNat n) extension).toList =
      "frame_".toList ++ (sequenceDigits n ++ (".".toList ++ extension.toList)) := by
  rw [sequenceName, Binary64.text_ofNat hn]
  simp only [String.toList_append, String.toList_ofList, List.append_assoc,
    length16_of_digits (isDigit_toDigits n), sequenceDigits]

/-- Reading the name of a file of a sequence gives back the number and the extension. -/
theorem readSequenceName_sequenceName (hn : n < Binary64.exactBound)
    (hne : extension.toList ≠ []) (hext : ∀ c ∈ extension.toList, c.isAlphanum = true) :
    readSequenceName (sequenceName (.ofNat n) extension) = some
      { number := .ofNat n, type := "BINARY", label := "", extension := extension,
        size := none } := by
  have hrun := splitRun_append (".".toList ++ extension.toList) (isDigit_sequenceDigits n)
    (fun c hc => by
      obtain rfl : '.' = c := Option.some.inj hc
      decide)
  have hnumber : digitsNumber (sequenceDigits n) = .ofNat n := by
    have hvalue : digitsValue (sequenceDigits n) = n := by
      rw [sequenceDigits, digitsValue_replicate_append, digitsValue_toDigits]
    rw [digitsNumber_eq_ofNat (by omega), hvalue]
  have hdigits : sequenceDigits n ≠ [] := by
    simp [sequenceDigits, Nat.toDigits_ne_nil]
  rw [readSequenceName, sequenceName_toList hn, dropStart?_append, Option.bind_eq_bind,
    Option.bind_some, hrun]
  dsimp only
  rw [dropStart?_append, Option.bind_some, hnumber, String.ofList_toList,
    if_neg (by simp [hdigits, hne, List.all_eq_true.mpr hext])]

/-- No name of a file of a sequence contains a slash. -/
theorem ne_slash_of_mem_sequenceName (hn : n < Binary64.exactBound)
    (hext : ∀ c ∈ extension.toList, c.isAlphanum = true) :
    ∀ c ∈ (sequenceName (.ofNat n) extension).toList, c ≠ '/' := by
  rw [sequenceName_toList hn]
  simp only [List.forall_mem_append]
  exact ⟨forall_mem_of_all (by decide),
    fun c hc => ne_slash_of_isDigit (isDigit_sequenceDigits n c hc), forall_mem_of_all (by decide),
    fun c hc => ne_slash_of_isAlphanum (hext c hc)⟩

end Sequence

section Reading

variable {n : Nat} {file : FrameFile} {name : String}

/-- The empty text is no name of a file. -/
theorem Naming.parse_empty (naming : Naming) : naming.parse "" = none := by
  cases naming <;> decide

/-- A stored file is read by its name. -/
theorem readArchiveFile_eq (naming : Naming) {parsed : ParsedName} {data : List UInt8}
    (hslash : ∀ c ∈ name.toList, c ≠ '/') (hparse : naming.parse name = some parsed) :
    readArchiveFile naming (Zip.Listed.ofEntry ⟨name, data⟩) =
      .ok ⟨parsed.number, ⟨parsed.type, parsed.label, parsed.extension, data⟩⟩ := by
  have hne : name ≠ "" := by
    rintro rfl
    rw [naming.parse_empty] at hparse
    cases hparse
  have hbase : baseName (Zip.Listed.ofEntry ⟨name, data⟩).name = name :=
    baseName_eq_self hne hslash
  rw [readArchiveFile, hbase, hparse]
  rfl

/-- A file that the naming can name is read with its number. -/
theorem readArchiveFile_of_format {naming : Naming} (hpos : 0 < n) (hn : n < listedBound)
    (h : naming.Names file) (hname : naming.format (.ofNat n) file = .ok name) :
    readArchiveFile naming (Zip.Listed.ofEntry ⟨name, file.data⟩) =
      .ok ⟨.ofNat n, naming.kept file⟩ := by
  cases naming with
  | flashDrive =>
    exact readArchiveFile_eq .flashDrive (ne_slash_of_mem_flashName hpos hn h hname)
      (readFlashName_flashName hpos hn h hname)
  | sequence =>
    have hexact : n < Binary64.exactBound := Nat.lt_trans hn listedBound_lt
    have hextension : ∀ c ∈ file.extension.toList, c.isAlphanum = true := List.all_eq_true.mp h.2
    have hparse := readSequenceName_sequenceName hexact h.1 hextension
    have hslash := ne_slash_of_mem_sequenceName hexact hextension
    rw [Except.ok.inj hname] at hparse hslash
    exact readArchiveFile_eq .sequence hslash hparse

/-- A file that the naming can name has a name for every number that can be listed. -/
theorem Naming.format_isOk {naming : Naming} (hpos : 0 < n) (hn : n < listedBound)
    (h : naming.Names file) : ∃ name, naming.format (.ofNat n) file = .ok name := by
  cases naming with
  | flashDrive => exact ⟨_, flashName_ofNat hpos hn h⟩
  | sequence => exact ⟨_, rfl⟩

end Reading

end Flipbook
