import Mathlib.Data.List.Induction
import Flipbook.Archive.Store
import Flipbook.Proofs.Archive.Layout
import Flipbook.Zip.Read

/-!
# An archive set that grows is packed like a whole sequence

Files arrive one by one, some of them empty and some of them too late, and the store may refuse any
archive. Still the store is asked to take just the archives that packing the files at once would
have made, each of them once, in order, and as soon as it is full. What the store refuses does not
show up in any later archive.

## Main definitions

* `SetCall`, `givenFiles`: the calls of an archive set, and the files that count.
* `Attempt`, `ArchiveStore.offer`: requests to a store, and those for a list of archives.
* `ArchiveSet.run`: the state behind some calls, and the requests on the way.
* `PackingProgress`: what a set under way has made of its files.

## Main results

* `PackingProgress.step`: a call keeps a set under way;
* `progress_run`: so does any number of calls;
* `ArchiveSet.run_refines_packSequence`: a set refines packing, whatever the store refuses.
-/

namespace Flipbook

/-- A call of an archive set. -/
inductive SetCall where
  | add (file : FrameFile)
  | close
  deriving DecidableEq

/-- The files that an archive set is given: those that are not empty, up to the first close. -/
def givenFiles : List SetCall → List FrameFile
  | [] => []
  | .add file :: rest => if file.data = [] then givenFiles rest else file :: givenFiles rest
  | .close :: _ => []

section Given

variable {calls : List SetCall} {file : FrameFile}

theorem givenFiles_append (calls more : List SetCall) :
    givenFiles (calls ++ more) =
      if .close ∈ calls then givenFiles calls else givenFiles calls ++ givenFiles more := by
  induction calls with
  | nil => rfl
  | cons call calls ih =>
    cases call with
    | add file =>
      by_cases hdata : file.data = []
      · simpa [givenFiles, hdata] using ih
      · simp only [List.cons_append, givenFiles, hdata, if_false, ih, List.mem_cons, reduceCtorEq,
          false_or]
        split <;> rfl
    | close => simp [givenFiles]

/-- Closing gives no file. -/
theorem givenFiles_close (calls : List SetCall) :
    givenFiles (calls ++ [.close]) = givenFiles calls := by
  rw [givenFiles_append]
  split
  · rfl
  · exact List.append_nil _

theorem data_ne_nil_of_mem_givenFiles (h : file ∈ givenFiles calls) : file.data ≠ [] := by
  induction calls with
  | nil => cases h
  | cons call calls ih =>
    cases call with
    | add other =>
      rw [givenFiles] at h
      split at h
      · exact ih h
      next hdata =>
        rcases List.mem_cons.mp h with rfl | hrest
        · exact hdata
        · exact ih hrest
    | close => cases h

end Given

/-- A request to store an archive, with the answer of the store. -/
structure Attempt where
  archive : PackedArchive
  answer : Except Error Unit

/-- The archives that were stored. -/
def accepted (attempts : List Attempt) : List PackedArchive :=
  attempts.filterMap fun attempt =>
    match attempt.answer with
    | .ok () => some attempt.archive
    | .error _ => none

theorem accepted_append (attempts more : List Attempt) :
    accepted (attempts ++ more) = accepted attempts ++ accepted more :=
  List.filterMap_append

/-- If nothing is refused, everything is stored. -/
theorem accepted_eq_map {attempts : List Attempt}
    (h : ∀ attempt ∈ attempts, attempt.answer = .ok ()) :
    accepted attempts = attempts.map Attempt.archive := by
  rw [accepted, ← List.filterMap_eq_map]
  apply List.filterMap_congr
  intro attempt hattempt
  rw [h attempt hattempt]
  rfl

section Offer

variable {σ : Type} [Zip.Codec] {store : ArchiveStore σ}

/-- Asks a store to take one more archive. -/
def ArchiveStore.offerNext (store : ArchiveStore σ) (log : σ × List Attempt)
    (archive : PackedArchive) : σ × List Attempt :=
  let (state, answer) := store.put log.1 archive.name archive.toZip
  (state, log.2 ++ [⟨archive, answer⟩])

/-- Asks a store to take archives, one after the other, whether it accepts them or not. -/
def ArchiveStore.offer (store : ArchiveStore σ) (state : σ) (archives : List PackedArchive) :
    σ × List Attempt :=
  archives.foldl store.offerNext (state, [])

theorem ArchiveStore.offer_concat (store : ArchiveStore σ) (state : σ)
    (archives : List PackedArchive) (archive : PackedArchive) :
    store.offer state (archives ++ [archive]) =
      store.offerNext (store.offer state archives) archive := by
  rw [offer, List.foldl_append]
  rfl

/-- Each archive is offered once, in order. -/
theorem ArchiveStore.map_archive_offer (store : ArchiveStore σ) (state : σ)
    (archives : List PackedArchive) :
    (store.offer state archives).2.map Attempt.archive = archives := by
  induction archives using List.reverseRecOn with
  | nil => rfl
  | append_singleton archives archive ih =>
    rw [offer_concat, offerNext, List.map_append, ih]
    rfl

end Offer

/-- What a writer makes of a call. -/
def ArchiveWriter.take (writer : ArchiveWriter) :
    SetCall → Except OutputError (ArchiveWriter × Option PackedArchive)
  | .add file => writer.add file
  | .close => writer.close

namespace ArchiveWriter

variable {writer : ArchiveWriter} {file : FrameFile} {entry : ArchiveEntry}

theorem take_add (hclosed : writer.closed = false) (hdata : file.data ≠ [])
    (hentry : writer.layout.entry writer.options.naming writer.count file = .ok entry) :
    writer.take (.add file) =
      if writer.current.length + 1 = writer.layout.framesPerArchive then
        flush { writer with current := writer.current ++ [entry], count := writer.count + 1 }
      else
        .ok ({ writer with current := writer.current ++ [entry], count := writer.count + 1 },
          none) := by
  rw [take, add, if_neg (by simp [hclosed]), if_neg (by simp [hdata]), hentry]
  dsimp only [bind, Except.bind]
  rw [List.length_append, List.length_singleton]

theorem take_close (hclosed : writer.closed = false) :
    writer.take .close = flush { writer with closed := true } := by
  rw [take, close, if_neg (by simp [hclosed])]

theorem flush_of_ne_nil {archive : PackedArchive} (hne : writer.current ≠ [])
    (hseal : sealArchive writer.options writer.archiveIndex writer.current = .ok archive) :
    writer.flush =
      .ok ({ writer with current := [], archiveIndex := writer.archiveIndex + 1 },
        some archive) := by
  rw [flush, if_neg (by simp [hne]), hseal]
  rfl

end ArchiveWriter

namespace ArchiveSet

variable {σ : Type} [Zip.Codec]

/-- Serves a call. -/
def serve (store : ArchiveStore σ) (set : ArchiveSet σ) : SetCall → ArchiveSet σ × SetOutcome
  | .add file => set.add store file
  | .close => set.close store

/-- The request that a call leads to, if it leads to one. Its answer is that of the call. -/
def attempts (store : ArchiveStore σ) (set : ArchiveSet σ) (call : SetCall) : List Attempt :=
  match set.writer.take call with
  | .ok (_, some archive) => [⟨archive, (set.serve store call).2.result⟩]
  | _ => []

/-- Serves a call, and notes the request that it leads to. -/
def next (store : ArchiveStore σ) (session : ArchiveSet σ × List Attempt) (call : SetCall) :
    ArchiveSet σ × List Attempt :=
  ((session.1.serve store call).1, session.2 ++ session.1.attempts store call)

/-- Serves calls, one after the other. -/
def run (store : ArchiveStore σ) (set : ArchiveSet σ) (calls : List SetCall) :
    ArchiveSet σ × List Attempt :=
  calls.foldl (next store) (set, [])

variable {store : ArchiveStore σ} {set : ArchiveSet σ} {session : ArchiveSet σ × List Attempt}
  {call : SetCall} {writer : ArchiveWriter} {archive : PackedArchive}

theorem run_concat (calls : List SetCall) (call : SetCall) :
    run store set (calls ++ [call]) = next store (run store set calls) call := by
  rw [run, List.foldl_append]
  rfl

theorem serve_eq (call : SetCall) :
    set.serve store call = set.follow store (set.writer.take call) := by
  cases call <;> rfl

theorem next_of_error {e : OutputError} (h : session.1.writer.take call = .error e) :
    next store session call = session := by
  rw [next, attempts, serve_eq, h, follow, List.append_nil]

theorem next_of_kept (h : session.1.writer.take call = .ok (writer, none)) :
    next store session call = (⟨writer, session.1.stored⟩, session.2) := by
  rw [next, attempts, serve_eq, h, follow, List.append_nil]

/-- An archive that is handed over is offered to the store, and noted if it is accepted. -/
theorem next_of_handed (store : ArchiveStore σ)
    (h : session.1.writer.take call = .ok (writer, some archive)) :
    ((next store session call).1.stored, (next store session call).2) =
        store.offerNext (session.1.stored, session.2) archive ∧
      ∃ answer, (next store session call).2 = session.2 ++ [⟨archive, answer⟩] ∧
        (next store session call).1.writer =
          { writer with archives := writer.archives ++ accepted [⟨archive, answer⟩] } := by
  rcases hput : store.put session.1.stored archive.name archive.toZip with ⟨state, answer⟩
  cases answer with
  | ok done =>
    simp only [next, attempts, serve_eq, h, follow, deliver, ArchiveStore.offerNext, hput]
    exact ⟨trivial, .ok (), rfl, rfl⟩
  | error e =>
    simp only [next, attempts, serve_eq, h, follow, deliver, ArchiveStore.offerNext, hput]
    exact ⟨trivial, .error e, rfl, by simp [accepted]⟩

/-- Closing succeeds if the store takes what is left. -/
theorem result_close_eq_ok (htake : ∃ result, set.writer.take .close = .ok result)
    (haccepted : ∀ attempt ∈ set.attempts store .close, attempt.answer = .ok ()) :
    (set.close store).2.result = .ok () := by
  obtain ⟨⟨writer, handed⟩, hresult⟩ := htake
  cases handed with
  | none =>
    show (set.serve store .close).2.result = .ok ()
    rw [serve_eq, hresult, follow]
  | some archive =>
    rw [attempts, hresult] at haccepted
    exact haccepted _ List.mem_cons_self

/-- Files without content, and files that come too late, change nothing. -/
theorem add_refused {file : FrameFile} (h : file.data = [] ∨ set.writer.closed = true) :
    ∃ e, set.add store file = (set, ⟨.error (.output e), false⟩) := by
  by_cases hclosed : set.writer.closed = true
  · refine ⟨.setClosed, ?_⟩
    rw [add, ArchiveWriter.add, if_pos hclosed, follow]
  · have hdata : file.data = [] := h.resolve_right hclosed
    refine ⟨.emptyFile (.ofNat (set.writer.count + 1)), ?_⟩
    rw [add, ArchiveWriter.add, if_neg hclosed, if_pos (by rw [hdata]; rfl), follow]

end ArchiveSet

section Sealing

variable {options : PackOptions} {layout : ArchiveLayout} {naming : Naming}
  {full piece : List ArchiveEntry} {pieces more : List (List ArchiveEntry)}
  {archives : List PackedArchive} {archive : PackedArchive}

theorem entries_concat {files : List FrameFile} {file : FrameFile} {entries : List ArchiveEntry}
    {entry : ArchiveEntry} (hentries : layout.entries naming files = .ok entries)
    (hentry : layout.entry naming files.length file = .ok entry) :
    layout.entries naming (files ++ [file]) = .ok (entries ++ [entry]) := by
  rw [ArchiveLayout.entries] at hentries ⊢
  rw [List.zipIdx_append, List.mapM_append, hentries, List.zipIdx_singleton, Nat.zero_add,
    List.mapM_cons, hentry]
  rfl

theorem length_of_sealPieces (h : sealPieces options pieces = .ok archives) :
    archives.length = pieces.length := by
  have hlength := (mapM_eq_ok_iff.mp h).length_eq
  rw [List.length_zipIdx] at hlength
  exact hlength.symm

theorem sealPieces_concat (h : sealPieces options pieces = .ok archives)
    (hseal : sealArchive options archives.length piece = .ok archive) :
    sealPieces options (pieces ++ [piece]) = .ok (archives ++ [archive]) := by
  rw [length_of_sealPieces h] at hseal
  rw [sealPieces] at h ⊢
  rw [List.zipIdx_append, List.mapM_append, h, List.zipIdx_singleton, Nat.zero_add,
    List.mapM_cons, hseal]
  rfl

/-- Archives of the first pieces are the first archives. -/
theorem isPrefix_of_sealPieces (h : sealPieces options pieces = .ok archives)
    {all : List PackedArchive} (hall : sealPieces options (pieces ++ more) = .ok all) :
    archives <+: all := by
  rw [sealPieces] at h hall
  simp only [List.zipIdx_append, List.mapM_append, bind_eq_ok_iff, h] at hall
  obtain ⟨archives', heq, rest, -, hall⟩ := hall
  obtain rfl := Except.ok.inj heq
  exact ⟨rest, Except.ok.inj hall⟩

end Sealing

/-- What an archive set has made of some files. The entries in `full` are packed already, into
`archives`, and every one of these was offered to the store. Those in `current` wait for the next
archive. -/
structure PackingProgress {σ : Type} [Zip.Codec] (store : ArchiveStore σ) (state : σ)
    (options : PackOptions) (layout : ArchiveLayout) (files : List FrameFile) (closed : Bool)
    (full current : List ArchiveEntry) (archives : List PackedArchive)
    (session : ArchiveSet σ × List Attempt) : Prop where
  writer_eq : session.1.writer =
    ⟨options, layout, current, archives.length, files.length, closed, accepted session.2⟩
  entries : layout.entries options.naming files = .ok (full ++ current)
  sealed : sealPieces options (chunks layout.framesPerArchive full) = .ok archives
  offered : (session.1.stored, session.2) = store.offer state archives
  /-- An open set keeps less than an archive. -/
  pending : closed = false → layout.framesPerArchive ∣ full.length ∧
    current.length < layout.framesPerArchive
  /-- A closed set keeps nothing. -/
  nothing : closed = true → current = []

namespace PackingProgress

variable {σ : Type} [Zip.Codec] {store : ArchiveStore σ} {state : σ} {options : PackOptions}
  {capacity first : Nat} {layout : ArchiveLayout} {files : List FrameFile} {closed : Bool}
  {full current : List ArchiveEntry} {archives : List PackedArchive}
  {session : ArchiveSet σ × List Attempt}

/-- An archive that is handed over is the next one of the set. -/
theorem handOver
    (h : PackingProgress store state options layout files false full current archives session)
    (hsize : 0 < layout.framesPerArchive) {more : List FrameFile} {piece : List ArchiveEntry}
    {archive : PackedArchive} {call : SetCall}
    (hentries : layout.entries options.naming more = .ok (full ++ piece)) (hne : piece ≠ [])
    (hle : piece.length ≤ layout.framesPerArchive)
    (hfull : closed = false → piece.length = layout.framesPerArchive)
    (hseal : sealArchive options archives.length piece = .ok archive)
    (htake : session.1.writer.take call =
      .ok (⟨options, layout, [], archives.length + 1, more.length, closed, accepted session.2⟩,
        some archive)) :
    PackingProgress store state options layout more closed (full ++ piece) []
      (archives ++ [archive]) (ArchiveSet.next store session call) := by
  obtain ⟨hoffered, answer, hlog, hwriter⟩ := ArchiveSet.next_of_handed store htake
  obtain ⟨hdvd, -⟩ := h.pending rfl
  constructor
  case writer_eq => rw [hwriter, hlog, accepted_append, List.length_append, List.length_singleton]
  case entries => rw [hentries, List.append_nil]
  case sealed =>
    rw [chunks_append hsize hdvd, chunks_eq_singleton hne hle]
    exact sealPieces_concat h.sealed hseal
  case offered => rw [hoffered, h.offered, ArchiveStore.offer_concat]
  case pending =>
    intro hopen
    rw [List.length_append, hfull hopen]
    exact ⟨Nat.dvd_add hdvd (Nat.dvd_refl _), hsize⟩
  case nothing => exact fun _ => rfl

/-- Nothing is offered to the store as long as there is room. -/
theorem keep
    (h : PackingProgress store state options layout files false full current archives session)
    {more : List FrameFile} {rest : List ArchiveEntry} {call : SetCall}
    (hentries : layout.entries options.naming more = .ok (full ++ rest))
    (hlt : closed = false → rest.length < layout.framesPerArchive)
    (hnothing : closed = true → rest = [])
    (htake : session.1.writer.take call =
      .ok (⟨options, layout, rest, archives.length, more.length, closed, accepted session.2⟩,
        none)) :
    PackingProgress store state options layout more closed full rest archives
      (ArchiveSet.next store session call) := by
  rw [ArchiveSet.next_of_kept htake]
  exact ⟨rfl, hentries, h.sealed, h.offered, fun hopen => ⟨(h.pending rfl).1, hlt hopen⟩, hnothing⟩

section Step

variable (husable : options.Usable capacity first layout)
include husable

omit [Zip.Codec] in
theorem exists_archive {piece : List ArchiveEntry} (hcount : files.length ≤ Binary64.exactBound)
    (hentries : layout.entries options.naming files = .ok (full ++ piece)) (index : Nat) :
    ∃ archive, sealArchive options index piece = .ok archive := by
  apply sealArchive_isOk husable.made
  intro e he
  apply husable.whole_of_mem_entries (by omega) hentries
  exact List.mem_append_right full he

/-- A file goes to those that wait, and they are handed over once they fill an archive. -/
theorem add
    (h : PackingProgress store state options layout files false full current archives session)
    {file : FrameFile} (hdata : file.data ≠ []) (hcount : files.length < Binary64.exactBound) :
    ∃ full' current' archives', PackingProgress store state options layout (files ++ [file]) false
      full' current' archives' (ArchiveSet.next store session (.add file)) := by
  have hmod := Nat.mod_le files.length layout.framesPerArchive
  have hplace : files.length % layout.framesPerArchive < Binary64.exactBound := by omega
  obtain ⟨entry, hentry⟩ := husable.entry_isOk hplace file
  have hentries := entries_concat h.entries hentry
  have hmore : (files ++ [file]).length = files.length + 1 := by
    rw [List.length_append, List.length_singleton]
  have hpiece : (current ++ [entry]).length = current.length + 1 := by
    rw [List.length_append, List.length_singleton]
  rw [List.append_assoc] at hentries
  obtain ⟨hdvd, hlt⟩ := h.pending rfl
  have htake := (congrArg (ArchiveWriter.take · (.add file)) h.writer_eq).trans
    (ArchiveWriter.take_add rfl hdata hentry)
  -- All that waits is handed over at once, so what is full stays a number of whole archives.
  by_cases hlast : current.length + 1 = layout.framesPerArchive
  · obtain ⟨archive, hseal⟩ := exists_archive husable (by omega) hentries archives.length
    refine ⟨_, _, _,
      h.handOver husable.room hentries (by simp) (by omega) (fun _ => by omega) hseal ?_⟩
    rw [htake, if_pos hlast, hmore]
    exact ArchiveWriter.flush_of_ne_nil (by simp) hseal
  · refine ⟨_, _, _, h.keep hentries (fun _ => by omega) nofun ?_⟩
    rw [htake, if_neg hlast, hmore]

/-- Closing hands over what waits. -/
theorem close
    (h : PackingProgress store state options layout files false full current archives session)
    (hcount : files.length ≤ Binary64.exactBound) :
    (∃ result, session.1.writer.take .close = .ok result) ∧
      ∃ full' archives', PackingProgress store state options layout files true full' [] archives'
        (ArchiveSet.next store session .close) := by
  obtain ⟨hdvd, hlt⟩ := h.pending rfl
  have htake := (congrArg (ArchiveWriter.take · .close) h.writer_eq).trans
    (ArchiveWriter.take_close rfl)
  by_cases hne : current = []
  · rw [ArchiveWriter.flush, if_pos (by simp [hne])] at htake
    subst hne
    exact ⟨⟨_, htake⟩, _, _, h.keep h.entries nofun (fun _ => rfl) htake⟩
  · obtain ⟨archive, hseal⟩ := exists_archive husable hcount h.entries archives.length
    rw [ArchiveWriter.flush_of_ne_nil hne hseal] at htake
    exact ⟨⟨_, htake⟩, _, _,
      h.handOver husable.room h.entries hne (Nat.le_of_lt hlt) nofun hseal htake⟩

end Step

/-- Closing never fails by itself. -/
theorem take_close_isOk (husable : options.Usable capacity first layout)
    (h : PackingProgress store state options layout files closed full current archives session)
    (hcount : files.length ≤ Binary64.exactBound) :
    ∃ result, session.1.writer.take .close = .ok result := by
  cases closed with
  | true =>
    rw [h.writer_eq]
    exact ⟨_, rfl⟩
  | false => exact (h.close husable hcount).1

/-- A closed set does not change any more. -/
theorem next_of_closed
    (h : PackingProgress store state options layout files true full current archives session)
    (call : SetCall) : ArchiveSet.next store session call = session := by
  have hclosed : session.1.writer.closed = true := by rw [h.writer_eq]
  cases call with
  | add file =>
    apply ArchiveSet.next_of_error (e := .setClosed)
    rw [ArchiveWriter.take, ArchiveWriter.add, if_pos hclosed]
  | close =>
    have htake : session.1.writer.take .close = .ok (session.1.writer, none) := by
      rw [ArchiveWriter.take, ArchiveWriter.close, if_pos hclosed]
    rw [ArchiveSet.next_of_kept htake]

/-- What was handed over is the start of what packing all files makes. -/
theorem archives_eq_take
    (h : PackingProgress store state options layout files closed full current archives session)
    (hsize : 0 < layout.framesPerArchive) {all : List PackedArchive}
    (hall : packFrames layout options files = .ok all) :
    archives = all.take
      (if closed then all.length else files.length / layout.framesPerArchive) := by
  obtain ⟨entries, hentries, hseal⟩ := packFrames_eq_ok_iff.mp hall
  obtain rfl : full ++ current = entries := Except.ok.inj (h.entries.symm.trans hentries)
  cases closed with
  | true =>
    rw [h.nothing rfl, List.append_nil] at hseal
    rw [if_pos rfl, List.take_length]
    exact Except.ok.inj (h.sealed.symm.trans hseal)
  | false =>
    obtain ⟨hdvd, hlt⟩ := h.pending rfl
    rw [chunks_append hsize hdvd] at hseal
    -- The full archives are counted by division, as less than one of them waits.
    have hcount : archives.length = files.length / layout.framesPerArchive := by
      rw [← length_entries hentries, List.length_append, length_of_sealPieces h.sealed,
        ← length_chunks hsize hdvd, Nat.add_comm, Nat.add_mul_div_right _ _ hsize,
        Nat.div_eq_of_lt hlt, Nat.zero_add]
    rw [if_neg Bool.false_ne_true, ← hcount]
    exact List.prefix_iff_eq_take.mp (isPrefix_of_sealPieces h.sealed hseal)

theorem next_of_empty
    (h : PackingProgress store state options layout files false full current archives session)
    {file : FrameFile} (hdata : file.data = []) :
    ArchiveSet.next store session (.add file) = session := by
  have hopen : session.1.writer.closed = false := by rw [h.writer_eq]
  apply ArchiveSet.next_of_error (e := .emptyFile (.ofNat (session.1.writer.count + 1)))
  rw [ArchiveWriter.take, ArchiveWriter.add, if_neg (by simp [hopen]), if_pos (by simp [hdata])]

end PackingProgress

section Run

variable {σ : Type} [Zip.Codec] {store : ArchiveStore σ} {state : σ} {options : PackOptions}
  {capacity first : Nat} {layout : ArchiveLayout}

/-- Any number of calls keeps a set under way. -/
theorem progress_run (store : ArchiveStore σ) (state : σ)
    (husable : options.Usable capacity first layout) (calls : List SetCall)
    (hcount : (givenFiles calls).length ≤ Binary64.exactBound) :
    ∃ full current archives, PackingProgress store state options layout (givenFiles calls)
      (decide (.close ∈ calls)) full current archives
      (ArchiveSet.run store ⟨⟨options, layout, [], 0, 0, false, []⟩, state⟩ calls) := by
  -- The induction is on the calls made so far, as each call meets what all before it have left.
  induction calls using List.reverseRecOn with
  | nil =>
    have hsealed : sealPieces options (chunks layout.framesPerArchive []) = .ok [] := by
      rw [chunks_nil]
      rfl
    exact ⟨[], [], [], rfl, rfl, hsealed, rfl, fun _ => ⟨Nat.dvd_zero _, husable.room⟩,
      fun _ => rfl⟩
  | append_singleton calls call ih =>
    rw [givenFiles_append] at hcount ⊢
    rw [ArchiveSet.run_concat]
    by_cases hclosed : .close ∈ calls
    · rw [if_pos hclosed] at hcount ⊢
      obtain ⟨full, current, archives, h⟩ := ih hcount
      rw [decide_eq_true hclosed] at h
      rw [decide_eq_true (List.mem_append_left _ hclosed), h.next_of_closed call]
      exact ⟨full, current, archives, h⟩
    · rw [if_neg hclosed] at hcount ⊢
      obtain ⟨full, current, archives, h⟩ := ih (by rw [List.length_append] at hcount; omega)
      rw [decide_eq_false hclosed] at h
      cases call with
      | add file =>
        have hopen : .close ∉ calls ++ [.add file] := by simp [hclosed]
        rw [decide_eq_false hopen]
        by_cases hdata : file.data = []
        · rw [h.next_of_empty hdata, givenFiles, if_pos hdata, givenFiles, List.append_nil]
          exact ⟨full, current, archives, h⟩
        · rw [givenFiles, if_neg hdata, givenFiles] at hcount ⊢
          rw [List.length_append, List.length_singleton] at hcount
          exact h.add husable hdata (by omega)
      | close =>
        rw [decide_eq_true (List.mem_append_right _ List.mem_cons_self), givenFiles,
          List.append_nil]
        rw [givenFiles, List.append_nil] at hcount
        obtain ⟨-, full', archives', hnext⟩ := h.close husable hcount
        exact ⟨full', [], archives', hnext⟩

/-- If nothing is refused, closing a set returns all that packing its files makes. -/
theorem close_of_accepted (husable : options.Usable capacity first layout) {calls : List SetCall}
    (hcount : (givenFiles calls).length ≤ Binary64.exactBound) {archives : List PackedArchive}
    (hpack : packFrames layout options (givenFiles calls) = .ok archives) {set : ArchiveSet σ}
    (hset : (ArchiveSet.run store ⟨⟨options, layout, [], 0, 0, false, []⟩, state⟩ calls).1 = set)
    (haccepted : ∀ attempt ∈ (ArchiveSet.run store
      ⟨⟨options, layout, [], 0, 0, false, []⟩, state⟩ (calls ++ [.close])).2,
        attempt.answer = .ok ()) :
    (set.close store).2.result = .ok () ∧ (set.close store).1.writer.archives = archives := by
  obtain ⟨full, current, handed, h⟩ := progress_run store state husable calls hcount
  -- Closing is one more call, behind which the set has handed over everything.
  have hclosing := progress_run store state husable (calls ++ [.close])
  rw [givenFiles_close, decide_eq_true (List.mem_append_right calls List.mem_cons_self)] at hclosing
  obtain ⟨full', current', all, hall⟩ := hclosing hcount
  have hcomplete : all = archives := by
    rw [hall.archives_eq_take husable.room hpack, if_pos rfl, List.take_length]
  have hstored := congrArg ArchiveWriter.archives hall.writer_eq
  dsimp only at hstored
  rw [accepted_eq_map haccepted, congrArg Prod.snd hall.offered, store.map_archive_offer,
    hcomplete] at hstored
  rw [ArchiveSet.run_concat] at haccepted hstored
  subst hset
  refine ⟨ArchiveSet.result_close_eq_ok ?_ fun attempt hattempt => ?_, hstored⟩
  · exact h.take_close_isOk husable hcount
  · exact haccepted attempt (List.mem_append_right _ hattempt)

/-- An archive set refines packing: behind any calls, whatever the store answers, the set has done
what packing all its files at once would make of them. -/
structure RefinesPacking (store : ArchiveStore σ) (set : ArchiveSet σ) (calls : List SetCall)
    (archives : List PackedArchive) : Prop where
  /-- The store was asked to take the archives that are full, or all of them if the set is closed:
  each one once, in order, whether it accepted them or not. -/
  offered : ((set.run store calls).1.stored, (set.run store calls).2) =
    store.offer set.stored (archives.take
      (if .close ∈ calls then archives.length
        else (givenFiles calls).length / set.writer.layout.framesPerArchive))
  /-- The archives of the set are those that the store accepted. -/
  accepted : (set.run store calls).1.writer.archives = accepted (set.run store calls).2
  /-- Closing returns all archives if none is refused. -/
  closed : (∀ attempt ∈ (set.run store (calls ++ [.close])).2, attempt.answer = .ok ()) →
    ((set.run store calls).1.close store).2.result = .ok () ∧
      ((set.run store calls).1.close store).1.writer.archives = archives
  /-- Empty files and files that come too late are refused, and change nothing. -/
  refused : ∀ file : FrameFile, file.data = [] ∨ .close ∈ calls →
    ∃ e, (set.run store calls).1.add store file =
      ((set.run store calls).1, ⟨.error (.output e), false⟩)

omit [Zip.Codec] in
theorem start_eq_ok_iff {writer : ArchiveWriter} :
    ArchiveWriter.start options = .ok writer ↔
      ∃ layout, options.layout = .ok layout ∧ writer = ⟨options, layout, [], 0, 0, false, []⟩ := by
  rw [ArchiveWriter.start, bind_eq_ok_iff]
  simp only [Except.ok.injEq, eq_comm]

omit [Zip.Codec] in
/-- Packing the files that a set is given. -/
theorem packSequence_givenFiles (hlayout : options.layout = .ok layout) {calls : List SetCall}
    (hcount : (givenFiles calls).length < Binary64.exactBound) :
    packSequence (numbered 1 (givenFiles calls)) options =
      packFrames layout options (givenFiles calls) :=
  packSequence_numbered hlayout (fun _ hfile => data_ne_nil_of_mem_givenFiles hfile) (by omega)

/-- A set whose options make sense refines packing. -/
theorem run_refines_packSequence {writer : ArchiveWriter}
    (hstart : ArchiveWriter.start options = .ok writer)
    (hvalid : (options.firstNumber.getD 1).Valid)
    (hmade : ∀ player, options.player = some player → player.Made)
    (store : ArchiveStore σ) (state : σ) (calls : List SetCall)
    (hcount : (givenFiles calls).length < Binary64.exactBound) :
    ∃ archives, packSequence (numbered 1 (givenFiles calls)) options = .ok archives ∧
      RefinesPacking store ⟨writer, state⟩ calls archives := by
  obtain ⟨layout, hlayout, rfl⟩ := start_eq_ok_iff.mp hstart
  obtain ⟨capacity, first, hlays⟩ := PackOptions.exists_lays hlayout
  have husable : options.Usable capacity first layout := ⟨hlays, hvalid, hmade⟩
  have hsuccess : ∃ archives, packFrames layout options (givenFiles calls) = .ok archives :=
    husable.packFrames_isOk (by omega)
  obtain ⟨archives, hpack⟩ := hsuccess
  obtain ⟨full, current, handed, h⟩ :=
    progress_run store state husable calls (Nat.le_of_lt hcount)
  refine ⟨archives, by rw [packSequence_givenFiles hlayout hcount, hpack], ?_⟩
  constructor
  case offered =>
    rw [h.offered, h.archives_eq_take hlays.room hpack]
    simp only [decide_eq_true_eq]
  case accepted => rw [h.writer_eq]
  case closed => exact close_of_accepted husable (Nat.le_of_lt hcount) hpack rfl
  case refused =>
    intro file hfile
    -- The set is closed exactly if it was told to close before.
    apply ArchiveSet.add_refused
    refine hfile.imp_right fun hclosed => ?_
    rw [h.writer_eq]
    exact decide_eq_true hclosed

end Run

/-- Three frames, an empty file among them and another file behind the end. -/
def interruptedCalls : List SetCall :=
  [.add ⟨"BINARY", "DATA", "", [1]⟩, .add ⟨"BINARY", "DATA", "", []⟩,
    .add ⟨"BINARY", "DATA", "", [2]⟩, .add ⟨"BINARY", "DATA", "", [3]⟩, .close,
    .add ⟨"BINARY", "DATA", "", [4]⟩]

/-- Archives of two frames each, led by a player. -/
def playedInPairs : PackOptions where
  capacity := 3
  naming := .flashDrive
  stem := "reel"
  firstNumber := none
  player := some (.fresh 2)

/-- A store that refuses the first archive. -/
def lateStore : ArchiveStore StoreLog :=
  memoryStore fun request => if request = 0 then some (.output .setClosed) else none

theorem run_refines_interruptedCalls :
    ∃ archives,
      packSequence (numbered 1 (givenFiles interruptedCalls)) playedInPairs = .ok archives ∧
      RefinesPacking lateStore ⟨⟨playedInPairs, ⟨2, 2⟩, [], 0, 0, false, []⟩, .empty⟩
        interruptedCalls archives := by
  have hstart : ArchiveWriter.start playedInPairs =
      .ok ⟨playedInPairs, ⟨2, 2⟩, [], 0, 0, false, []⟩ := by decide +kernel
  have hmade : ∀ player, playedInPairs.player = some player → player.Made := by
    intro player hplayer
    obtain rfl := Option.some.inj hplayer
    exact .inl ⟨2, by decide +kernel⟩
  have hvalid : (playedInPairs.firstNumber.getD 1).Valid :=
    Binary64.valid_ofNat (n := 1) (by decide)
  exact run_refines_packSequence hstart hvalid hmade lateStore .empty interruptedCalls (by decide)

end Flipbook
