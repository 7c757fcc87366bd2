import Microcode.Command.Directory
import Mathlib.Tactic

/-!
# The command writes everything or nothing

**Input.**  Accepted arguments that ask for neither help nor version, and a host with
any standard input and any files.

**Algorithm.**  What is seen of a host is its standard input and the content of every
file.  Reading keeps what is seen, a refused writing keeps it, and a granted one
replaces the content of one file.  A request reads first, then assembles, and writes
last, so only its last step can change anything.

**Results.**
* `ofItems_cases`: what the items of the arguments ask for.
* `brings_of_readSource`, `writeOutput_cases` and `runAssemble_cases`: what one step of
  the command sees and leaves.
* `Directory.lawful_host`: a directory of its own is such a host.
* `perform_all_or_nothing`: however a request was read, its failure changes nothing, and
  its success changes one destination.
* `run_all_or_nothing`: the same for the requests that are read from arguments.
-/

namespace Microcode

/-- The line of a field in a listing, without its end. -/
def Fields.entry (v : Fields) (f : Field) : String :=
  f.name ++ ":\t" ++ String.ofList (Text.numeral 2 f.width (v f).toNat)

namespace Command

section Texts

/-- Lines as a text, each with its end. -/
def unlines (lines : List String) : String :=
  String.join (lines.map (· ++ "\n"))

theorem unlines_append
    (left right : List String) :
    unlines (left ++ right) = unlines left ++ unlines right := by
  rw [unlines, List.map_append, String.join_append]
  rfl

/-- The lines of a word: the word, and its fields and an empty line if asked for. -/
def objectLines (format : WordFormat) (explain : Bool) (w : ControlWord) : List String :=
  format.render w :: if explain then Field.layout.map w.fields.entry ++ [""] else []

/-- A listing has one line for every field. -/
theorem listing_eq_unlines
    (v : Fields) :
    v.listing = unlines (Field.layout.map v.entry) := by
  rw [Fields.listing, unlines, List.map_map]
  rfl

theorem wordText_eq_unlines
    (format : WordFormat)
    (explain : Bool)
    (w : ControlWord) :
    wordText format explain w = unlines (objectLines format explain w) := by
  have hcons : ∀ line rest, unlines (line :: rest) = line ++ "\n" ++ unlines rest :=
    fun line rest => String.join_cons
  rw [wordText, objectLines, hcons]
  cases explain with
  | false =>
      rfl
  | true =>
      rw [if_pos rfl, if_pos rfl, unlines_append, listing_eq_unlines]
      rfl

/-- The words are written line by line, in their order. -/
theorem wordsText_eq_unlines
    (format : WordFormat)
    (explain : Bool)
    (words : List ControlWord) :
    wordsText format explain words = unlines (words.flatMap (objectLines format explain)) := by
  induction words with
  | nil =>
      rfl
  | cons w words ih =>
      rw [List.flatMap_cons, unlines_append, ← ih, ← wordText_eq_unlines]
      exact String.join_cons

end Texts

section Items

variable {items : List Item}

theorem mem_settingValues
    {s : Setting}
    {value : Option String} :
    value ∈ settingValues s items ↔ .setting s value ∈ items := by
  rw [settingValues, List.mem_filterMap]
  constructor
  · rintro ⟨item, hitem, hvalue⟩
    cases item with
    | setting t found =>
        simp only [Option.ite_none_right_eq_some, Option.some.injEq] at hvalue
        obtain ⟨rfl, rfl⟩ := hvalue
        exact hitem
    | switch t => cases hvalue
    | file path => cases hvalue
  · intro hitem
    exact ⟨_, hitem, by simp⟩

/-- An accepted setting has one value, or it is not given. -/
theorem mem_items_of_settingValue?
    {s : Setting}
    {result : Option String}
    (h : settingValue? s items = .ok result)
    (value : Option String) :
    .setting s value ∈ items ↔ ∃ text, result = some text ∧ value = some text := by
  rw [← mem_settingValues]
  rw [settingValue?] at h
  split at h
  · next hvalues =>
      cases h
      simp [hvalues]
  · next text hvalues =>
      cases h
      simp [hvalues]
  · cases h
  · cases h

theorem mem_items_of_switchValue
    {s : Switch}
    {given : Bool}
    (h : switchValue s items = .ok given) :
    given = true ↔ .switch s ∈ items := by
  rw [switchValue] at h
  have hcount : 0 < items.countP (· == .switch s) ↔ .switch s ∈ items := by
    simp [List.countP_pos_iff]
  rw [← hcount]
  split at h
  · next hzero =>
      cases h
      simp [hzero]
  · next hone =>
      cases h
      simp [hone]
  · cases h

theorem file_of_filePath? :
    .file ((filePath? items).getD "-") ∈ items ∨
      ((filePath? items).getD "-" = "-" ∧ ∀ path, .file path ∉ items) := by
  cases hpath : filePath? items with
  | none =>
      refine Or.inr ⟨rfl, fun path hitem => ?_⟩
      have hnone := List.findSome?_eq_none_iff.1 hpath _ hitem
      cases hnone
  | some path =>
      obtain ⟨item, hitem, hfile⟩ := List.exists_of_findSome?_eq_some hpath
      cases item with
      | setting s value => cases hfile
      | switch s => cases hfile
      | file found =>
          cases hfile
          exact Or.inl hitem

theorem name_of_formatValue
    {name : String}
    {format : WordFormat}
    (h : formatValue name = .ok format) :
    format.name = name := by
  rw [formatValue, WordFormat.ofName?] at h
  split at h
  · next found hfound =>
      cases h
      simpa using List.find?_some hfound
  · cases h

/-- Options as some items give them, or as they are without. -/
structure Options.Given (o : Options) (items : List Item) : Prop where
  input : .file o.input ∈ items ∨ (o.input = "-" ∧ ∀ path, .file path ∉ items)
  output : ∀ value, .setting .output value ∈ items → value = some o.output
  output_default : (∀ value, .setting .output value ∉ items) → o.output = "-"
  format : ∀ value, .setting .format value ∈ items → value = some o.format.name
  format_default : (∀ value, .setting .format value ∉ items) → o.format = .binary
  explain : o.explain = true ↔ .switch .explain ∈ items
  symbols : o.symbols = true ↔ .switch .symbols ∈ items

/-- A setting in use holds the value that is given, or its default. -/
theorem setting_of_settingValue?
    {s : Setting}
    {result : Option String}
    (h : settingValue? s items = .ok result)
    (default : String) :
    (∀ value, .setting s value ∈ items → value = some (result.getD default)) ∧
      ((∀ value, .setting s value ∉ items) → result.getD default = default) := by
  refine ⟨fun value hvalue => ?_, fun hnone => ?_⟩
  · obtain ⟨text, rfl, rfl⟩ := (mem_items_of_settingValue? h value).1 hvalue
    rfl
  · cases result with
    | none => rfl
    | some text => exact absurd ((mem_items_of_settingValue? h _).2 ⟨text, rfl, rfl⟩) (hnone _)

theorem bind_eq_ok_iff
    {ε α β : Type}
    {x : Except ε α}
    {f : α → Except ε β}
    {b : β} :
    (x >>= f) = .ok b ↔ ∃ a, x = .ok a ∧ f a = .ok b := by
  cases x with
  | error e => simp [bind, Except.bind]
  | ok a => simp [bind, Except.bind]

/-- Accepted items ask to decode a word if one is given, and else to assemble. -/
theorem ofItems_cases
    {request : Request}
    (h : Request.ofItems items = .ok request) :
    (∃ word, request = .decode word ∧
        ∀ value, .setting .decode value ∈ items ↔ value = some word) ∨
      ((∀ value, .setting .decode value ∉ items) ∧
        ∃ o, request = .assemble o ∧ o.Given items) := by
  simp only [Request.ofItems, bind_eq_ok_iff] at h
  obtain ⟨output, houtput, name, hname, format, hformat, word, hword, explain, hexplain,
    symbols, hsymbols, h⟩ := h
  cases word with
  | some word =>
      cases h
      refine Or.inl ⟨word, rfl, fun value => ?_⟩
      rw [mem_items_of_settingValue? hword]
      simp
  | none =>
      cases h
      obtain ⟨hgiven, hdefault⟩ := setting_of_settingValue? houtput "-"
      obtain ⟨hformatGiven, hformatDefault⟩ := setting_of_settingValue? hname "binary"
      rw [← name_of_formatValue hformat] at hformatGiven hformatDefault
      refine Or.inr ⟨fun value hvalue => ?_, _, rfl, {
        input := file_of_filePath?
        output := hgiven
        output_default := hdefault
        format := hformatGiven
        format_default := fun hnone => ?_
        explain := mem_items_of_switchValue hexplain
        symbols := mem_items_of_switchValue hsymbols }⟩
      · obtain ⟨text, htext, -⟩ := (mem_items_of_settingValue? hword value).1 hvalue
        cases htext
      · have hbinary := hformatDefault hnone
        cases format <;> first | rfl | exact absurd hbinary (by decide)

end Items

section Hosts

/-- What is seen of a host: its standard input, the file that a path names, and the
content of every file that exists. -/
structure View (σ ι : Type) where
  input : σ → ByteArray
  file? : String → Option ι
  content : σ → ι → Option ByteArray

variable {σ ι : Type}

/-- Only one file has changed, and it holds some bytes. -/
def View.Replaces (view : View σ ι) (s s' : σ) (file : ι) (bytes : ByteArray) : Prop :=
  view.content s' file = some bytes ∧
    ∀ other, other ≠ file → view.content s' other = view.content s other

/-- The bytes that the standard input for `-`, or else a file, holds. -/
def View.Supplies (view : View σ ι) (s : σ) (input : String) (bytes : ByteArray) : Prop :=
  if input = "-" then view.input s = bytes
  else ∃ file, view.file? input = some file ∧ view.content s file = some bytes

/-- The standard output for `-`, or else a file, receives a text, and nothing else
does. -/
def View.Receives (view : View σ ι) (s s' : σ) (exit : Exit) (output text : String) : Prop :=
  if output = "-" then exit.stdout = text ∧ view.content s' = view.content s
  else exit.stdout = "" ∧
    ∃ file, view.file? output = some file ∧ view.Replaces s s' file text.toUTF8

/-- A host that reads what is there and changes nothing by it, and that replaces the
content of a file or refuses to and changes nothing. -/
structure Host.Lawful (host : Host (StateM σ)) (view : View σ ι) : Prop where
  stdin : ∀ {s s' bytes}, host.stdin.run s = (bytes, s') →
    view.input s = bytes ∧ view.content s' = view.content s
  read : ∀ {path s s' result}, (host.read path).run s = (result, s') →
    view.content s' = view.content s ∧
      ∀ bytes, result = .ok bytes →
        ∃ file, view.file? path = some file ∧ view.content s file = some bytes
  write_ok : ∀ {path text s s'}, (host.write path text).run s = (.ok (), s') →
    ∃ file, view.file? path = some file ∧ view.Replaces s s' file text.toUTF8
  write_error : ∀ {path text s s' fault}, (host.write path text).run s = (.error fault, s') →
    view.content s' = view.content s

/-- The name of the source that is read for an input. -/
def sourceName (input : String) : String :=
  if input = "-" then "<stdin>" else input

/-- What a host reads for an input: the standard input for `-`, else a file. -/
def Host.bytes (host : Host (StateM σ)) (s : σ) (input : String) : Except FileFault ByteArray :=
  if input = "-" then .ok (host.stdin.run s).1 else ((host.read input).run s).1

/-- What stands in the way of a request. -/
inductive Obstacle (host : Host (StateM σ)) (s : σ) : Request → Prop
  | word {word error}
      (h : ControlWord.decode word = .error error) :
      Obstacle host s (.decode word)
  | unread {o fault}
      (h : host.bytes s o.input = .error fault) :
      Obstacle host s (.assemble o)
  | notText {o bytes}
      (hread : host.bytes s o.input = .ok bytes)
      (h : ¬ bytes.IsValidUTF8) :
      Obstacle host s (.assemble o)
  | rejected {o text failure}
      (hread : host.bytes s o.input = .ok text.toUTF8)
      (h : Source.assemble ⟨sourceName o.input, text⟩ = .error failure) :
      Obstacle host s (.assemble o)
  | unwritten {o text before after fault}
      (houtput : o.output ≠ "-")
      (h : (host.write o.output text).run before = (.error fault, after)) :
      Obstacle host s (.assemble o)

/-- An outcome that leaves nothing on the standard output. -/
def Exit.Fails (exit : Exit) : Prop :=
  exit.status ≠ 0 ∧ exit.stdout = ""

end Hosts

section Steps

variable {σ ι : Type} {host : Host (StateM σ)} {view : View σ ι} {s s' : σ}

/-- What an input brings: the source with its text, or a failure to read one. -/
def Host.Brings (host : Host (StateM σ)) (s : σ) (input : String) : Except Exit Source → Prop
  | .ok source =>
      ∃ text, host.bytes s input = .ok text.toUTF8 ∧ source = ⟨sourceName input, text⟩
  | .error exit =>
      exit.Fails ∧ ((∃ fault, host.bytes s input = .error fault) ∨
        ∃ bytes, host.bytes s input = .ok bytes ∧ ¬ bytes.IsValidUTF8)

theorem fails_failure
    (printed context cause : String) :
    (Exit.failure printed context cause).Fails :=
  ⟨by simp [Exit.failure], rfl⟩

theorem fails_failureExit
    (source : Source)
    (failure : Failure) :
    (failureExit source failure).Fails := by
  cases failure with
  | errors list => exact ⟨by simp [failureExit], rfl⟩
  | defect cause => exact ⟨by simp [failureExit], rfl⟩

theorem run_bind_eq_iff
    {α β : Type}
    {x : StateM σ α}
    {f : α → StateM σ β}
    {b : β} :
    (x >>= f).run s = (b, s') ↔ ∃ a t, x.run s = (a, t) ∧ (f a).run t = (b, s') := by
  constructor
  · intro h
    exact ⟨(x.run s).1, (x.run s).2, rfl, h⟩
  · rintro ⟨a, t, hx, hf⟩
    rw [StateT.run_bind, hx]
    exact hf

/-- What is read for an input is there. -/
theorem Host.Lawful.supplies
    (hlaw : host.Lawful view)
    {input : String}
    {bytes : ByteArray}
    (h : host.bytes s input = .ok bytes) :
    view.Supplies s input bytes := by
  rw [Host.bytes] at h
  rw [View.Supplies]
  split at h
  · next hinput =>
      rw [if_pos hinput, ← Except.ok.inj h]
      exact (hlaw.stdin rfl).1
  · next hinput =>
      rw [if_neg hinput]
      exact (hlaw.read rfl).2 bytes h

/-- Bytes become the source of an input, unless they encode no text. -/
theorem brings_sourceOfBytes
    {input : String}
    {bytes : ByteArray}
    (h : host.bytes s input = .ok bytes)
    (context : String) :
    host.Brings s input (sourceOfBytes (sourceName input) context bytes) := by
  unfold sourceOfBytes String.fromUTF8?
  by_cases hvalid : bytes.IsValidUTF8
  · rw [dif_pos hvalid]
    exact ⟨.fromUTF8 bytes hvalid, h, rfl⟩
  · rw [dif_neg hvalid]
    exact ⟨fails_failure _ _ _, Or.inr ⟨bytes, h, hvalid⟩⟩

/-- Reading the source changes nothing and brings the text of the input. -/
theorem brings_of_readSource
    (hlaw : host.Lawful view)
    {input : String}
    {result : Except Exit Source}
    (h : (readSource host input).run s = (result, s')) :
    view.content s' = view.content s ∧ host.Brings s input result := by
  rw [readSource] at h
  split at h
  · next hinput =>
      obtain ⟨bytes, t, hread, h⟩ := run_bind_eq_iff.1 h
      have hbytes : host.bytes s input = .ok bytes := by
        rw [Host.bytes, if_pos hinput, hread]
      have hsource := brings_sourceOfBytes hbytes "Failed to read from stdin"
      rw [sourceName, if_pos hinput] at hsource
      cases h
      exact ⟨(hlaw.stdin hread).2, hsource⟩
  · next hinput =>
      obtain ⟨found, t, hread, h⟩ := run_bind_eq_iff.1 h
      have hfound : host.bytes s input = found := by
        rw [Host.bytes, if_neg hinput, hread]
      cases found with
      | ok bytes =>
          have hsource := brings_sourceOfBytes hfound ("Failed to open for reading: " ++ input)
          rw [sourceName, if_neg hinput] at hsource
          cases h
          exact ⟨(hlaw.read hread).1, hsource⟩
      | error fault =>
          cases h
          exact ⟨(hlaw.read hread).1, fails_failure _ _ _, Or.inl ⟨fault, hfound⟩⟩

/-- What is received depends only on the files that were seen before. -/
theorem View.Receives.congr_left
    {t : σ}
    {exit : Exit}
    {output text : String}
    (h : view.Receives t s' exit output text)
    (hkept : view.content t = view.content s) :
    view.Receives s s' exit output text := by
  unfold View.Receives View.Replaces at h ⊢
  rwa [hkept] at h

/-- The text goes where it is wanted, or nothing changes. -/
theorem writeOutput_cases
    (hlaw : host.Lawful view)
    {output text stderr : String}
    {exit : Exit}
    (h : (writeOutput host output text stderr).run s = (exit, s')) :
    (exit.status = 0 ∧ view.Receives s s' exit output text) ∨
      (exit.Fails ∧ view.content s' = view.content s ∧ output ≠ "-" ∧
        ∃ fault, (host.write output text).run s = (.error fault, s')) := by
  rw [writeOutput] at h
  split at h
  · next houtput =>
      cases h
      rw [View.Receives, if_pos houtput]
      exact Or.inl ⟨rfl, rfl, rfl⟩
  · next houtput =>
      obtain ⟨result, t, hwrite, h⟩ := run_bind_eq_iff.1 h
      rw [View.Receives, if_neg houtput]
      cases result with
      | ok done =>
          cases h
          exact Or.inl ⟨rfl, rfl, hlaw.write_ok hwrite⟩
      | error fault =>
          cases h
          exact Or.inr ⟨fails_failure _ _ _, hlaw.write_error hwrite, houtput, fault, hwrite⟩

/-- Assembling writes all words to its destination, or it meets an obstacle and changes
nothing. -/
theorem runAssemble_cases
    (hlaw : host.Lawful view)
    {o : Options}
    {exit : Exit}
    (h : (runAssemble host o).run s = (exit, s')) :
    (exit.status = 0 ∧ ∃ text asm, view.Supplies s o.input text.toUTF8 ∧
        Source.assemble ⟨sourceName o.input, text⟩ = .ok asm ∧
        view.Receives s s' exit o.output
          (unlines (asm.words.flatMap (objectLines o.format o.explain)))) ∨
      (exit.Fails ∧ view.content s' = view.content s ∧ Obstacle host s (.assemble o)) := by
  obtain ⟨result, t, hread, h⟩ := run_bind_eq_iff.1 h
  obtain ⟨hkept, hbrings⟩ := brings_of_readSource hlaw hread
  -- Up to the last step nothing has been written, so every failure keeps what was read.
  cases result with
  | error failed =>
      cases h
      obtain ⟨hfails, ⟨fault, hfault⟩ | ⟨bytes, hbytes, hvalid⟩⟩ := hbrings
      · exact Or.inr ⟨hfails, hkept, .unread hfault⟩
      · exact Or.inr ⟨hfails, hkept, .notText hbytes hvalid⟩
  | ok source =>
      obtain ⟨text, hbytes, rfl⟩ := hbrings
      cases hasm : Source.assemble ⟨sourceName o.input, text⟩ with
      | error failure =>
          simp only [hasm] at h
          cases h
          exact Or.inr ⟨fails_failureExit _ _, hkept, .rejected hbytes hasm⟩
      | ok asm =>
          simp only [hasm] at h
          rcases writeOutput_cases hlaw h with
            ⟨hstatus, hreceives⟩ | ⟨hfails, hsame, houtput, fault, hwrite⟩
          · rw [wordsText_eq_unlines] at hreceives
            refine Or.inl ⟨hstatus, text, asm, hlaw.supplies hbytes, hasm, ?_⟩
            exact hreceives.congr_left hkept
          · exact Or.inr ⟨hfails, hsame.trans hkept, .unwritten houtput hwrite⟩

end Steps

namespace Directory

/-- What is seen of a directory. -/
def view : View Directory String where
  input := stdin
  file? := fileName?
  content := fun dir name => dir.files.lookup name

theorem lookup_cons_eq
    (name other : String)
    (content : ByteArray)
    (files : List (String × ByteArray)) :
    ((name, content) :: files).lookup other =
      if other = name then some content else files.lookup other := by
  by_cases hother : other = name
  · rw [hother, List.lookup_cons_self, if_pos rfl]
  · rw [List.lookup_cons, beq_false_of_ne hother, if_neg hother]

/-- After a file has been replaced, it holds the new content, and every other file is
as before. -/
theorem lookup_replace
    (name other : String)
    (content : ByteArray)
    (files : List (String × ByteArray)) :
    (replace name content files).lookup other =
      if other = name then some content else files.lookup other := by
  induction files with
  | nil =>
      exact lookup_cons_eq _ _ _ _
  | cons file files ih =>
      obtain ⟨found, old⟩ := file
      rw [replace, lookup_cons_eq]
      split
      · next hfound =>
          rw [lookup_cons_eq, hfound]
          split <;> rfl
      · next hfound =>
          rw [lookup_cons_eq, ih]
          split
          · next hother => rw [if_neg (hother ▸ hfound)]
          · rfl

/-- A directory of its own is a lawful host. -/
theorem lawful_host :
    host.Lawful view where
  stdin h := by
    cases h
    exact ⟨rfl, rfl⟩
  read {path s s' result} h := by
    rw [host, StateT.run] at h
    cases hcontent : s.content? path with
    | some content =>
        simp only [hcontent] at h
        cases h
        refine ⟨rfl, fun bytes hbytes => ?_⟩
        cases hbytes
        exact Option.bind_eq_some_iff.1 hcontent
    | none =>
        simp only [hcontent] at h
        cases h
        exact ⟨rfl, by simp⟩
  write_ok {path text s s'} h := by
    rw [host, StateT.run] at h
    cases hname : fileName? path with
    | some name =>
        simp only [hname] at h
        cases h
        refine ⟨name, hname, ?_, fun other hother => ?_⟩
        · exact (lookup_replace _ _ _ _).trans (if_pos rfl)
        · exact (lookup_replace _ _ _ _).trans (if_neg hother)
    | none =>
        simp only [hname] at h
        cases h
  write_error {path text s s' fault} h := by
    rw [host, StateT.run] at h
    cases hname : fileName? path with
    | some name =>
        simp only [hname] at h
        cases h
    | none =>
        simp only [hname] at h
        cases h
        rfl

end Directory

section Runs

/-- A word is decoded to its listing, or nothing goes to the standard output. -/
theorem decodeExit_cases
    (word : String) :
    (∃ w, ControlWord.decode word = .ok w ∧ decodeExit word = .success w.fields.listing "") ∨
      ∃ error, ControlWord.decode word = .error error ∧ (decodeExit word).Fails := by
  rw [decodeExit]
  cases ControlWord.decode word with
  | ok w => exact Or.inl ⟨w, rfl, rfl⟩
  | error error => exact Or.inr ⟨error, rfl, fails_failure _ _ _⟩

/-- What a request leaves behind once it is fulfilled: a text of its own on the standard
output, the listing of a word there, or the words of the source at its output. -/
def View.Fulfils {σ ι : Type} (view : View σ ι) (s s' : σ) (exit : Exit) : Request → Prop
  | .help => exit.stdout = helpText ∧ view.content s' = view.content s
  | .version => exit.stdout = versionText ∧ view.content s' = view.content s
  | .decode word => ∃ w, ControlWord.decode word = .ok w ∧
      exit.stdout = unlines (Field.layout.map w.fields.entry) ∧
      view.content s' = view.content s
  | .assemble o => ∃ text asm, view.Supplies s o.input text.toUTF8 ∧
      Source.assemble ⟨sourceName o.input, text⟩ = .ok asm ∧
      view.Receives s s' exit o.output
        (unlines (asm.words.flatMap (objectLines o.format o.explain)))

/-- Every request is fulfilled, or something stands in its way and changes nothing.  How
the request was read from arguments does not matter. -/
theorem perform_all_or_nothing
    {σ ι : Type}
    {host : Host (StateM σ)}
    {view : View σ ι}
    (hlaw : host.Lawful view)
    {request : Request}
    {s s' : σ}
    {exit : Exit}
    (h : (perform host request).run s = (exit, s')) :
    (exit.status = 0 ∧ view.Fulfils s s' exit request) ∨
      (exit.Fails ∧ view.content s' = view.content s ∧ Obstacle host s request) := by
  cases request with
  | help =>
      cases h
      exact Or.inl ⟨rfl, rfl, rfl⟩
  | version =>
      cases h
      exact Or.inl ⟨rfl, rfl, rfl⟩
  | decode word =>
      cases h
      rcases decodeExit_cases word with ⟨w, hdecode, hexit⟩ | ⟨error, hdecode, hfails⟩
      · rw [hexit]
        exact Or.inl ⟨rfl, w, hdecode, listing_eq_unlines _, rfl⟩
      · exact Or.inr ⟨hfails, rfl, .word hdecode⟩
  | assemble o => exact runAssemble_cases hlaw h

/-- **All or nothing.**  For accepted arguments other than help and version: if the
status is not zero, something stood in the way, nothing goes to the standard output and
every file is as before.  If it is zero and a word was to be decoded, its field listing
goes to the standard output and every file is as before.  If it is zero otherwise, the
input holds a text that is assembled, and the lines of its words, in the order of their
addresses, are all that the output receives. -/
theorem run_all_or_nothing
    {σ ι : Type}
    (host : Host (StateM σ))
    (view : View σ ι)
    (hlaw : host.Lawful view)
    (args : List String)
    (items : List Item)
    (request : Request)
    (hitems : readItems none false args = .ok items)
    (hrequest : Request.ofItems items = .ok request)
    (s s' : σ)
    (exit : Exit)
    (hrun : (run host args).run s = (exit, s')) :
    (exit.status ≠ 0 →
        exit.stdout = "" ∧ view.content s' = view.content s ∧ Obstacle host s request) ∧
      (∀ word, .setting .decode (some word) ∈ items → exit.status = 0 →
        ∃ w, ControlWord.decode word = .ok w ∧
          exit.stdout = unlines (Field.layout.map w.fields.entry) ∧
          view.content s' = view.content s) ∧
      ((∀ value, .setting .decode value ∉ items) → exit.status = 0 →
        ∃ (o : Options) (text : String) (asm : Assembly), o.Given items ∧
          view.Supplies s o.input text.toUTF8 ∧
          Source.assemble ⟨sourceName o.input, text⟩ = .ok asm ∧
          view.Receives s s' exit o.output
            (unlines (asm.words.flatMap (objectLines o.format o.explain)))) := by
  have hperform : (perform host request).run s = (exit, s') := by
    have hargs : Request.ofArgs args = .ok request := by
      simp only [Request.ofArgs, hitems, hrequest]
    simpa only [run, hargs] using hrun
  rcases perform_all_or_nothing hlaw hperform with
    ⟨hstatus, hfulfils⟩ | ⟨⟨hstatus, hstdout⟩, hkept, hobstacle⟩
  · refine ⟨fun hne => absurd hstatus hne, fun word hword _ => ?_, fun hnone _ => ?_⟩
    · rcases ofItems_cases hrequest with ⟨given, rfl, hgiven⟩ | ⟨hnone, -⟩
      · obtain rfl : word = given := Option.some.inj ((hgiven _).1 hword)
        exact hfulfils
      · exact absurd hword (hnone _)
    · rcases ofItems_cases hrequest with ⟨given, rfl, hgiven⟩ | ⟨-, o, rfl, hgiven⟩
      · exact absurd ((hgiven _).2 rfl) (hnone _)
      · obtain ⟨text, asm, hsupplies, hasm, hreceives⟩ := hfulfils
        exact ⟨o, text, asm, hgiven, hsupplies, hasm, hreceives⟩
  · exact ⟨fun _ => ⟨hstdout, hkept, hobstacle⟩, fun _ _ hzero => absurd hzero hstatus,
      fun _ hzero => absurd hzero hstatus⟩

/-- A source is replaced by its object text, under another spelling of its path, and the
other file stays. -/
theorem run_all_or_nothing_replaced :
    let args := ["-x", "--format=hex", "-o", "./p", "p"]
    let items : List Item := [.switch .explain, .setting .format (some "hex"),
      .setting .output (some "./p"), .file "p"]
    let before : Directory := ⟨.empty, [("p", "rd;".toUTF8), ("q", "x".toUTF8)]⟩
    let text := unlines (objectLines .hex true ⟨0x00400000⟩)
    let after : Directory := ⟨.empty, [("p", text.toUTF8), ("q", "x".toUTF8)]⟩
    Directory.host.Lawful Directory.view ∧
      readItems none false args = .ok items ∧
      Request.ofItems items = .ok (.assemble ⟨"p", "./p", .hex, true, false⟩) ∧
      (run Directory.host args).run before = (⟨0, "", ""⟩, after) ∧
      ∃ (o : Options) (source : String) (asm : Assembly), o.Given items ∧
        Directory.view.Supplies before o.input source.toUTF8 ∧
        Source.assemble ⟨sourceName o.input, source⟩ = .ok asm ∧
        Directory.view.Receives before after ⟨0, "", ""⟩ o.output
          (unlines (asm.words.flatMap (objectLines o.format o.explain))) := by
  intro args items before text after
  have hitems : readItems none false args = .ok items := by decide +kernel
  have hrequest :
      Request.ofItems items = .ok (.assemble ⟨"p", "./p", .hex, true, false⟩) := by decide +kernel
  have hrun : (run Directory.host args).run before = (⟨0, "", ""⟩, after) := by
    show @Eq (Exit × Directory) _ _
    decide +kernel
  obtain ⟨-, -, hzero⟩ := run_all_or_nothing Directory.host Directory.view Directory.lawful_host
    args items _ hitems hrequest before after _ hrun
  exact ⟨Directory.lawful_host, hitems, hrequest, hrun, hzero (by simp [items]) rfl⟩

end Runs

end Command
end Microcode
