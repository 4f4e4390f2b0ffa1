import T4.Lib.Program
import T4.Recovery.Model
import T4.Store.Repeated

/-!
# Batches that were appended again

After a failed ACK or apply a follower is sent a batch again and appends it again, so its
WAL holds sequences more than once. `ReplayLocal` does not sort them. It leaves the store
that applying each sequence once would leave, unless the WAL ends between two versions of a
key that it goes through again, or ends in the header of a segment.
-/

namespace T4.Recovery

open Lib Bytes Wal Mvcc List

/-! ## The files -/

/-- A segment file: what was appended to it, and how many of its bytes a crash has left. -/
structure LocalFile where
  term : Nat
  firstRev : Int
  entries : List Entry
  kept : Nat

namespace LocalFile

def bytes (f : LocalFile) : Bytes := (segHeader f.term f.firstRev ++ frames f.entries).take f.kept

def found (f : LocalFile) : List Entry := segmentEntries f.bytes

theorem newSegmentReader_bytes {f : LocalFile} (whole : segHeaderLen ≤ f.kept) :
    newSegmentReader f.bytes =
      .ok (walFormatVersion, (frames f.entries).take (f.kept - segHeaderLen)) := by
  have split : f.bytes = segHeader f.term f.firstRev ++
      (frames f.entries).take (f.kept - segHeaderLen) := by
    rw [bytes, take_append, length_segHeader, take_of_length_le]
    rw [length_segHeader]
    exact whole
  rw [split]
  exact newSegmentReader_segHeader _ _ _

theorem newSegmentReader_cut {f : LocalFile} (cut : f.kept < segHeaderLen) :
    newSegmentReader f.bytes = .error .headerTruncated := by
  refine newSegmentReader_torn ?_
  rw [bytes, length_take]
  omega

theorem found_eq {f : LocalFile} (whole : segHeaderLen ≤ f.kept) :
    f.found = readAll walFormatVersion ((frames f.entries).take (f.kept - segHeaderLen)) := by
  rw [found, segmentEntries, newSegmentReader_bytes whole]

theorem mem_of_mem_found {f : LocalFile} (framed : ∀ e ∈ f.entries, Framed e) {e : Entry}
    (mem : e ∈ f.found) : e ∈ f.entries := by
  by_cases whole : segHeaderLen ≤ f.kept
  · obtain ⟨j, torn, -, split, ends, -⟩ := take_frames framed (f.kept - segHeaderLen)
    have taken : ∀ e ∈ f.entries.take j, Framed e :=
      fun e mem => framed e (mem_of_mem_take mem)
    rw [found_eq whole, split, readAll_frames taken ends] at mem
    exact mem_of_mem_take mem
  · rw [found, segmentEntries, newSegmentReader_cut (by omega)] at mem
    cases mem

/-- A segment of which the frames of `front` are left. -/
def cutAfter (front lost : List Entry) : LocalFile where
  term := 1
  firstRev := 1
  entries := front ++ lost
  kept := segHeaderLen + (frames front).length

end LocalFile

/-- The entries that can be read from the files, in the order of the replay. -/
def foundIn (files : List LocalFile) : List Entry := files.flatMap LocalFile.found

/-- What a follower of the history `h` appends: batches of consecutive entries, each of them
beginning at most one after the highest so far. -/
inductive FollowerLog (h : List Entry) : List Entry → Prop
  | nil : FollowerLog h []
  | append {log batch : List Entry} (front : FollowerLog h log) (consecutive : batch <:+: h)
      (resumes : log ≠ [] → ∀ e ∈ batch.head?, e.sequence ≤ sequenceOf log + 1) :
      FollowerLog h (log ++ batch)

/-! ## ReplayLocal -/

/-- The entries above `afterSeq`, in the order of the replay. -/
def replayedFrom (files : List LocalFile) (afterSeq : Int) : List Entry :=
  (foundIn files).filter (fun e => e.sequence > afterSeq)

theorem replayedFrom_cons (f : LocalFile) (files : List LocalFile) (afterSeq : Int) :
    replayedFrom (f :: files) afterSeq =
      f.found.filter (fun e => e.sequence > afterSeq) ++ replayedFrom files afterSeq := by
  simp [replayedFrom, foundIn]

theorem replayLocal_holds {files : List LocalFile} (whole : ∀ f ∈ files, segHeaderLen ≤ f.kept)
    {s : Store} {g : List Entry} (holds : s.Holds g) {afterSeq : Int}
    (coherent : Coherent (g ++ replayedFrom files afterSeq)) :
    ∃ s' commits, replayLocal afterSeq s (files.map LocalFile.bytes) = .ok (s', commits) ∧
      s'.Holds (g ++ replayedFrom files afterSeq) := by
  induction files generalizing s g with
  | nil => exact ⟨s, [], rfl, by simpa [replayedFrom, foundIn] using holds⟩
  | cons f files ih =>
    have here := whole f (by simp)
    have later := fun other mem => whole other (mem_cons_of_mem f mem)
    rw [replayedFrom_cons] at coherent ⊢
    rw [map_cons, replayLocal, LocalFile.newSegmentReader_bytes here]
    simp only [← LocalFile.found_eq here]
    by_cases none : f.found.filter (fun e => e.sequence > afterSeq) = []
    · rw [none, nil_append] at coherent ⊢
      rw [if_pos rfl]
      exact ih later holds coherent
    · rw [← append_assoc] at coherent ⊢
      obtain ⟨next, recovered, holdsNext⟩ :=
        holds.recover (coherent.sublist (sublist_append_left _ _))
      obtain ⟨s', commits, replayed, holds'⟩ := ih later holdsNext coherent
      rw [if_neg none, recovered]
      simp only [replayed]
      exact ⟨s', _, rfl, holds'⟩

theorem replayLocal_cut {files : List LocalFile} {f : LocalFile} (mem : f ∈ files)
    (cut : f.kept < segHeaderLen) (afterSeq : Int) (s : Store) (result : Store × List Pebble) :
    replayLocal afterSeq s (files.map LocalFile.bytes) ≠ .ok result := by
  induction files generalizing s result with
  | nil => cases mem
  | cons first files ih =>
    intro replayed
    rw [map_cons, replayLocal] at replayed
    rcases mem_cons.mp mem with rfl | later
    · rw [LocalFile.newSegmentReader_cut cut] at replayed
      cases replayed
    · split at replayed
      · cases replayed
      · dsimp only at replayed
        split at replayed
        · exact ih later s result replayed
        · split at replayed
          · cases replayed
          · rename_i next _
            split at replayed
            · cases replayed
            · rename_i inner
              exact ih later next _ inner

/-! ## Each sequence once -/

/-- The entries of the history up to a sequence. -/
def upTo (h : List Entry) (seq : Int) : List Entry := h.filter (fun e => e.sequence ≤ seq)

/-- The entries of `es`, each once and in the order of the history. -/
def inOrder (h es : List Entry) : List Entry := h.filter (fun e => e ∈ es)

/-- For every key, the last of `es` to write it is the one with the highest sequence, or
both delete it. -/
def EndsInOrder (h es : List Entry) : Prop :=
  ∀ k, headVersion (versions es) k = headVersion (versions (inOrder h es)) k

theorem upTo_append_above {h : List Entry}
    (increasing : h.Pairwise (fun a b => a.sequence < b.sequence)) (L : Int) :
    upTo h L ++ h.filter (fun e => L < e.sequence) = h := by
  induction h with
  | nil => rfl
  | cons e rest ih =>
    obtain ⟨first, increasing⟩ := pairwise_cons.mp increasing
    by_cases low : e.sequence ≤ L
    · have split := ih increasing
      rw [upTo] at split ⊢
      rw [filter_cons_of_pos (by simpa using low),
        filter_cons_of_neg (by simpa using low), cons_append, split]
    · have high : ∀ x ∈ e :: rest, L < x.sequence := by
        intro x mem
        rcases mem_cons.mp mem with rfl | mem
        · omega
        · have := first x mem
          omega
      have none : upTo (e :: rest) L = [] := by
        rw [upTo, filter_eq_nil_iff]
        intro x mem
        simpa using high x mem
      rw [none, nil_append, filter_eq_self]
      intro x mem
      simpa using high x mem

theorem upTo_append_sublist {h es : List Entry} (seq : Sequenced h) {L : Int}
    (above : ∀ e ∈ es, L < e.sequence) : (upTo h L ++ inOrder h es).Sublist h := by
  have later : inOrder h es = (h.filter (fun e => L < e.sequence)).filter (fun e => e ∈ es) := by
    rw [inOrder, filter_filter]
    apply filter_congr
    intro e _
    by_cases mem : e ∈ es <;> simp [mem, above]
  calc (upTo h L ++ inOrder h es).Sublist (upTo h L ++ h.filter (fun e => L < e.sequence)) := by
        rw [later]
        exact (List.Sublist.refl _).append filter_sublist
    _ = h := upTo_append_above seq.increasing L

/-- **Replay with repetitions.** A store holds the history up to `L`, a follower's WAL holds
batches of it, some of them again, cut anywhere. `ReplayLocal` leaves what applying each
sequence above `L` once would leave exactly if no file ends in its header and the replay
ends in order. -/
theorem replayLocal_reappended_iff {h : List Entry} (wf : WellFormed h) (seq : Sequenced h)
    (framed : ∀ e ∈ h, Framed e) {L : Int} (last : sequenceOf (upTo h L) = L)
    (files : List LocalFile) (appended : ∀ f ∈ files, ∀ e ∈ f.entries, e ∈ h)
    (batches batchesRef : List (FeedBy × List Entry))
    (holds : batches.flatMap Prod.snd = upTo h L)
    (holdsRef : batchesRef.flatMap Prod.snd = inOrder h (replayedFrom files L)) :
    ∃ s ref, Store.empty.feed batches = .ok s ∧ s.lastSeq = L ∧ s.feed batchesRef = .ok ref ∧
      ((∃ s' commits, replayLocal s.lastSeq s (files.map LocalFile.bytes) = .ok (s', commits) ∧
          s'.currentRev = ref.currentRev ∧ s'.lastSeq = ref.lastSeq ∧
          ReadsAlike s' ref (watermarkOf (upTo h L ++ inOrder h (replayedFrom files L)))) ↔
        (∀ f ∈ files, segHeaderLen ≤ f.kept) ∧ EndsInOrder h (replayedFrom files L)) := by
  have within : ∀ e ∈ replayedFrom files L, e ∈ h := by
    intro e mem
    obtain ⟨f, inFiles, inFile⟩ := mem_flatMap.mp (mem_filter.mp mem).1
    have ofFile := appended f inFiles
    exact ofFile e (f.mem_of_mem_found (fun e mem => framed e (ofFile e mem)) inFile)
  have above : ∀ e ∈ replayedFrom files L, L < e.sequence := by
    intro e mem
    simpa using (mem_filter.mp mem).2
  have wfFound := wf.sublist (upTo_append_sublist seq above)
  have wfStored := wfFound.sublist (sublist_append_left _ _)
  have coherent : Coherent (upTo h L ++ replayedFrom files L) := by
    refine ⟨h, wf, ?_⟩
    intro e mem
    exact (mem_append.mp mem).elim (fun early => (mem_filter.mp early).1) (within e)
  have once : ∀ e, e ∈ replayedFrom files L ↔ e ∈ inOrder h (replayedFrom files L) := by
    intro e
    simp only [inOrder, mem_filter, decide_eq_true_eq]
    exact ⟨fun mem => ⟨within e mem, mem⟩, And.right⟩
  have same : ∀ e, e ∈ upTo h L ++ replayedFrom files L ↔
      e ∈ upTo h L ++ inOrder h (replayedFrom files L) := by
    intro e
    rw [mem_append, mem_append, once]
  obtain ⟨s, fed, rep⟩ := Store.represents_empty.feed batches (by simpa [holds] using wfStored)
  rw [nil_append, holds] at rep
  obtain ⟨ref, fedRef, repRef⟩ := rep.feed batchesRef (by simpa [holdsRef] using wfFound)
  rw [holdsRef] at repRef
  have lastSeq : s.lastSeq = L := rep.lastSeq.trans last
  have heads := headVersion_append_iff (versions (upTo h L)) (mem_versions_of_mem once)
  rw [← versions_append, ← versions_append] at heads
  refine ⟨s, ref, fed, lastSeq, fedRef, ?_⟩
  rw [lastSeq]
  constructor
  · rintro ⟨s', commits, replayed, -, -, reads⟩
    have whole : ∀ f ∈ files, segHeaderLen ≤ f.kept := by
      intro f mem
      by_contra cut
      exact replayLocal_cut mem (by omega) L s _ replayed
    obtain ⟨_, _, again, holds'⟩ := replayLocal_holds whole rep.holds coherent
    rw [replayed] at again
    cases again
    exact ⟨whole, heads.mp ((holds'.readsAlike_iff repRef.holds wfFound same).mp reads)⟩
  · rintro ⟨whole, ends⟩
    obtain ⟨s', commits, replayed, holds'⟩ := replayLocal_holds whole rep.holds coherent
    refine ⟨s', commits, replayed, ?_, ?_, ?_⟩
    · rw [holds'.currentRev, repRef.currentRev, revisionOf_eq_of_mem same]
    · rw [holds'.lastSeq, repRef.lastSeq, sequenceOf_eq_of_mem same]
    · exact (holds'.readsAlike_iff repRef.holds wfFound same).mpr (heads.mpr ends)

-- The files below are read back by evaluation, checksums included.
set_option maxRecDepth 2000

theorem sampleHistory_sequenced : Sequenced sampleHistory := ⟨by decide, by decide, by decide⟩

theorem sampleHistory_framed : ∀ e ∈ sampleHistory, Framed e := by decide

theorem followerLog_twice {h : List Entry} (first : ∀ e ∈ h.head?, e.sequence = 1) :
    FollowerLog h (h ++ h) := by
  refine .append (.append .nil infix_rfl (fun nonempty => absurd rfl nonempty))
    infix_rfl ?_
  intro _ e mem
  have := sequenceOf_nonneg h
  rw [first e mem]
  exact le_add_of_nonneg_left this

/-- The whole history is appended twice. -/
theorem replayLocal_reappended_twice :
    ∃ s ref s' commits, Store.empty.feed [] = .ok s ∧
      s.feed [(.apply, sampleHistory)] = .ok ref ∧
      replayLocal s.lastSeq s [(LocalFile.cutAfter (sampleHistory ++ sampleHistory) []).bytes] =
        .ok (s', commits) ∧ s'.lastSeq = ref.lastSeq ∧ ReadsAlike s' ref 2 := by
  have replayed : replayedFrom [LocalFile.cutAfter (sampleHistory ++ sampleHistory) []] 0 =
      sampleHistory ++ sampleHistory := by
    decide +kernel
  have once : inOrder sampleHistory (sampleHistory ++ sampleHistory) = sampleHistory := by decide
  have appended : ∀ f ∈ [LocalFile.cutAfter (sampleHistory ++ sampleHistory) []],
      ∀ e ∈ f.entries, e ∈ sampleHistory := by simp [LocalFile.cutAfter]
  have all := replayLocal_reappended_iff sampleHistory_chained.wellFormed sampleHistory_sequenced
    sampleHistory_framed (L := 0) (by decide) _ appended [] [(.apply, sampleHistory)] (by decide)
    (by rw [replayed, once]; rfl)
  rw [replayed, once] at all
  obtain ⟨s, ref, fed, lastSeq, fedRef, reads⟩ := all
  have ends : EndsInOrder sampleHistory (sampleHistory ++ sampleHistory) := by
    intro k
    rw [once, versions_append]
    exact headVersion_append_self _ k
  obtain ⟨s', commits, ran, -, same, alike⟩ := reads.mpr ⟨by simp [LocalFile.cutAfter], ends⟩
  exact ⟨s, ref, s', commits, fed, fedRef, ran, same, alike⟩

/-- The log of the sample history, appended twice and cut the second time after its first
entry. -/
def cutSecond : LocalFile :=
  LocalFile.cutAfter (sampleHistory ++ sampleHistory.take 1) (sampleHistory.drop 1)

/-- The key that the history deletes is back, at the revision of that entry. -/
theorem deleted_reappended :
    Chained sampleHistory ∧ FollowerLog sampleHistory (sampleHistory ++ sampleHistory) ∧
    cutSecond.entries = sampleHistory ++ sampleHistory ∧
    (∃ s' commits, replayLocal 0 Store.empty [cutSecond.bytes] = .ok (s', commits) ∧
      s'.get [1] = .ok (some
        { key := [1], value := [7], revision := 1, createRevision := 1, version := 1 })) ∧
    (Store.empty.apply sampleHistory).1.get [1] = .ok none := by
  obtain ⟨r, replayed, found⟩ :=
    exists_ok_of_eval (x := replayLocal 0 Store.empty [cutSecond.bytes])
    (P := fun r => r.1.get [1] = .ok (some
      { key := [1], value := [7], revision := 1, createRevision := 1, version := 1 }))
    (by decide +kernel)
  exact ⟨sampleHistory_chained, followerLog_twice (by decide), by decide,
    ⟨r.1, r.2, replayed, found⟩,
    by decide +kernel⟩

end T4.Recovery
