/-
# Files that grow

A log is indexed once and goes on growing. The index still tells where the old lines are: the reads
of a lookup end at the last newline that was there when the file was indexed, so what has been
appended since is never seen, also when it is appended while a search is running.

The machine below lets every step of a search see a file of its own. While each of them begins with
the file that was indexed, the search has the runs that it would have had on that file.
-/

import Flashlight.IndexLookup
import Flashlight.Search.Complete
import Flashlight.Search.Progress

namespace Flashlight.Search

open Flashlight.Math

/-- One step of a search of the file as it is at the moment. -/
def growingStep (regex : Pcre2Code) (flookup : FLookupFile) (config : FSearcher)
    (a : TargetFile × SearchAction) (s : SearchRun) : Option SearchRun :=
  searchStep regex ⟨a.1, flookup⟩ config a.2 s

/-! ## Lookups -/

/-- Behind the end of a read nothing is read. -/
theorem pread_of_grown {bytes grown : List UInt8} (hgrown : bytes <+: grown) {count : UInt64}
    {offset : Int64} (hend : offset.toInt.toNat + count.toNat ≤ bytes.length)
    (delivery : Delivery) :
    pread grown count offset delivery = pread bytes count offset delivery := by
  obtain ⟨more, rfl⟩ := hgrown
  have htake : ((bytes ++ more).drop offset.toInt.toNat).take count.toNat =
      (bytes.drop offset.toInt.toNat).take count.toNat := by
    rw [List.drop_append_of_le_length (by omega),
      List.take_append_of_le_length (by rw [List.length_drop]; omega)]
  unfold pread
  rw [htake]

section

variable {index : FIndex} {grown : TargetFile}

theorem readLines_of_grown (hgrown : index.target.bytes <+: grown.bytes) (env : LookupEnv)
    {j k : ℕ} (hjk : j ≤ k) :
    readLines env ⟨grown, index.flookup⟩ (sizeBytes (.ofNat (lineOffset index.target.bytes j)))
        (sizeBytes (.ofNat (lineOffset index.target.bytes k))) =
      readLines env index (sizeBytes (.ofNat (lineOffset index.target.bytes j)))
        (sizeBytes (.ofNat (lineOffset index.target.bytes k))) := by
  have hle : lineOffset index.target.bytes j ≤ lineOffset index.target.bytes k :=
    lineStart_mono _ _ hjk
  have hk : lineOffset index.target.bytes k ≤ index.target.bytes.length :=
    lineStart_le_length _ _ k
  have hsize := index.target.size_lt
  have hjNat := toNat_lineOffset index.target j
  have hkNat := toNat_lineOffset index.target k
  have hsub : (UInt64.ofNat (lineOffset index.target.bytes k) -
      .ofNat (lineOffset index.target.bytes j)).toNat =
      lineOffset index.target.bytes k - lineOffset index.target.bytes j := by
    rw [UInt64.toNat_sub_of_le, hjNat, hkNat]
    rw [UInt64.le_iff_toNat_le, hjNat, hkNat]
    exact hle
  have hoffset : (UInt64.ofNat (lineOffset index.target.bytes j)).toInt64.toInt =
      lineOffset index.target.bytes j := by
    rw [toInt_toInt64 (by omega), hjNat]
  unfold readLines
  simp only [ofBytes_sizeBytes, UInt64.ofNat_toNat]
  rw [pread_of_grown hgrown (by rw [hsub, hoffset]; omega)]

/-- An entry that was read as a whole is the offset of its line. -/
theorem eq_of_pread_entry (hexact : index.Exact) {delivery : Delivery} {offset : Int64} {k : ℕ}
    {data : List UInt8} (hk : k ≤ newlineCount index.target.bytes)
    (hoffset : offset.toInt = ((newlineCount index.target.bytes - k) * 8 : ℕ))
    (hread : pread index.flookup.contents 8 offset delivery = some data)
    (hlength : 8 ≤ data.length) :
    data = sizeBytes (.ofNat (lineOffset index.target.bytes k)) := by
  have hfull : Delivery.Full (some index.flookup.contents.length) index.flookup.contents :=
    ⟨_, rfl, le_rfl⟩
  have hentry := hexact.pread_entry hfull hk hoffset
  rw [pread_of_full hfull (by omega)] at hentry
  exact (pread_eq_of_le hread hlength).trans (Option.some.inj hentry)

/-- **Lookups do not see what was appended.** However the reads and the allocations of a lookup
turn out, it ends as it would have on the file that was indexed. -/
theorem fIndexLookup_of_grown (hexact : index.Exact)
    (hgrown : index.target.bytes <+: grown.bytes) (env : LookupEnv) {start count : UInt64}
    (hsum : start.toNat + count.toNat < 2 ^ 64) :
    fIndexLookup env ⟨grown, index.flookup⟩ start count = fIndexLookup env index start count := by
  have hmax := hexact.toNat_maxLine
  have hlen := index.flookup.len.toNat_lt
  rw [hexact.len_eq] at hlen
  unfold fIndexLookup
  by_cases hpast : start > index.flookup.maxLine
  · rw [if_pos hpast, if_pos hpast]
  · rw [if_neg hpast, if_neg hpast]
    have hstart : start.toNat ≤ newlineCount index.target.bytes := by
      rw [← hmax]
      exact UInt64.le_iff_toNat_le.mp (UInt64.not_lt.mp hpast)
    have hclamp := toNat_clampedCount (show start.toNat ≤ index.flookup.maxLine.toNat by omega) hsum
    obtain ⟨startOffset, endOffset, hoffsets, hstartInt, hendInt⟩ :=
      lookupOffsets_eq (show index.flookup.maxLine.toNat < 2 ^ 32 by omega)
        (show start.toNat + (clampedCount index.flookup.maxLine start count).toNat ≤ _ by omega)
    rw [hclamp, hmax] at hendInt
    rw [hmax] at hstartInt
    simp only [hoffsets]
    cases hstartRead : pread index.flookup.contents 8 startOffset env.startRead with
    | none => rfl
    | some startBytes =>
        cases hendRead : pread index.flookup.contents 8 endOffset env.endRead with
        | none => rfl
        | some endBytes =>
            have hlines : readLines env ⟨grown, index.flookup⟩ startBytes endBytes =
                readLines env index startBytes endBytes := by
              by_cases hshort : startBytes.length < 8 ∨ endBytes.length < 8
              · rw [readLines, if_pos hshort, readLines, if_pos hshort]
              · rw [not_or, not_lt, not_lt] at hshort
                rw [eq_of_pread_entry hexact hstart hstartInt hstartRead hshort.1,
                  eq_of_pread_entry hexact (Nat.min_le_right _ _) hendInt hendRead hshort.2]
                exact readLines_of_grown hgrown env (by omega)
            simp only [hlines]

end

/-! ## Searches -/

section

variable {regex : Pcre2Code} {index : FIndex} {config : FSearcher} {grown : TargetFile}

/-- A step of a search thread looks up lines that were indexed. -/
theorem searcherStep_of_grown (hexact : index.Exact)
    (hgrown : index.target.bytes <+: grown.bytes) {thread : FSearcherThread} {w : Searcher}
    (hbounded : thread.Bounded) (hreported : w.Reported thread) (a : SearcherAction)
    (shared : SearchShared) :
    searcherStep regex ⟨grown, index.flookup⟩ thread a shared w =
      searcherStep regex index thread a shared w := by
  unfold searcherStep
  cases hpc : w.pc with
  | lookup i =>
      cases a with
      | lookup env =>
          simp only [Searcher.Reported, hpc] at hreported
          have hle := (hbounded.toNat_batchSize_le hreported.1).1
          have hrange := hbounded.range_lt
          simp only [fIndexLookup_of_grown hexact hgrown env
            (show i.toNat + (thread.batchSize i).toNat < 2 ^ 64 by omega)]
      | proceed => rfl
      | fault => rfl
      | line env => rfl
  | enter => rfl
  | batch i => rfl
  | line cursor => rfl
  | noMatch cursor => rfl
  | deliver cursor result => rfl
  | exited metLimit => rfl
  | undefined => rfl

/-- A step of a search of the grown file is a step of a search of the indexed one. -/
theorem searchStep_of_grown (hexact : index.Exact) (hgrown : index.target.bytes <+: grown.bytes)
    {s : SearchRun} (hreported : s.Reported) (a : SearchAction) :
    searchStep regex ⟨grown, index.flookup⟩ config a s = searchStep regex index config a s := by
  cases a with
  | searcher t b =>
      have hthread : ∀ thread : SearchThread, s.crew.threads[t]? = some thread →
          searchThreadStep regex ⟨grown, index.flookup⟩ b s.crew.shared thread =
            searchThreadStep regex index b s.crew.shared thread := by
        intro thread hthread
        obtain ⟨hbounded, -, hw⟩ := hreported.created thread (List.mem_of_getElem? hthread)
        rw [searchThreadStep, searcherStep_of_grown hexact hgrown hbounded hw]
        rfl
      rw [searchStep, searchStep, crewStep, crewStep, stepAt_congr hthread]
  | proceed => rfl
  | fault => rfl
  | invalidRegex => rfl

/-- **Files that grow while they are searched.** As long as the file begins with what was indexed, a
search has exactly the runs that it has on the indexed file, whatever is appended and when. -/
theorem growing_search (hexact : index.Exact) (allowed : SearchRun → SearchAction → Prop)
    (s : SearchRun) :
    Reaches (growingStep regex index.flookup config)
        (fun s a => index.target.bytes <+: a.1.bytes ∧ allowed s a.2) .start s ↔
      Reaches (searchStep regex index config) allowed .start s := by
  constructor
  · intro hreach
    refine @Reaches.invariant _ _ _ _ (Reaches (searchStep regex index config) allowed .start)
      _ _ hreach (.refl _) fun s a s' h ha hstep => ?_
    have hreported := reported_of_reaches (h.mono fun _ _ _ => trivial)
    rw [growingStep, searchStep_of_grown hexact ha.1 hreported] at hstep
    exact h.trans (.single ha.2 hstep)
  · intro hreach
    refine @Reaches.invariant _ _ _ _ (Reaches (growingStep regex index.flookup config)
      (fun s a => index.target.bytes <+: a.1.bytes ∧ allowed s a.2) .start) _ _ hreach (.refl _)
      fun s a s' h ha hstep => ?_
    have hstep' : growingStep regex index.flookup config (index.target, a) s = some s' := hstep
    exact h.trans (.single ⟨List.prefix_refl _, ha⟩ hstep')

end

/-- Another line is appended to `lineFile` after the thread has begun: the lookup already finds the
longer file, and only the line that was indexed is delivered, as if nothing had been appended. -/
theorem growing_search_line : ∃ trace s,
    Run (growingStep anyLine lineIndex.flookup oneBatch) .start trace s ∧
    trace.map (fun move => move.2.1.bytes) =
      List.replicate 5 lineFile.bytes ++ List.replicate 9 (pairFile 97).bytes ∧
    s.pc = .returned 0 ∧ s.crew.shared.delivered.map FSearchResult.line = [(1, [97])] ∧
    Reaches (searchStep anyLine lineIndex oneBatch) (fun _ _ => True) .start s := by
  have hsummary : (runTrace (growingStep anyLine lineIndex.flookup oneBatch)
      (List.replicate 3 (lineFile, .proceed) ++
        List.replicate 2 (lineFile, .searcher 0 .proceed) ++
        (lineSteps.drop 2).map (fun a => (pairFile 97, .searcher 0 a)) ++
        List.replicate 3 (pairFile 97, .proceed)) .start).map (fun run =>
        (run.1.map fun move => move.2.1.bytes, run.2.pc,
          run.2.crew.shared.delivered.map FSearchResult.line)) =
      some (List.replicate 5 lineFile.bytes ++ List.replicate 9 (pairFile 97).bytes,
        .returned 0, [(1, [97])]) := by decide +kernel
  obtain ⟨⟨trace, s⟩, hrun, hpair⟩ := Option.map_eq_some_iff.mp hsummary
  obtain ⟨hfiles, hpair⟩ := Prod.mk.inj hpair
  obtain ⟨hreturn, hdelivered⟩ := Prod.mk.inj hpair
  have hrun := run_of_runTrace hrun
  have hexact : lineIndex.Exact := ⟨by decide, by decide⟩
  refine ⟨trace, s, hrun, hfiles, hreturn, hdelivered,
    (growing_search hexact (fun _ _ => True) s).mp (hrun.reaches_of_forall fun move hmove => ?_)⟩
  have hbytes : move.2.1.bytes ∈ trace.map fun move => move.2.1.bytes :=
    List.mem_map_of_mem (f := fun move => move.2.1.bytes) hmove
  rw [hfiles, List.mem_append, List.mem_replicate, List.mem_replicate] at hbytes
  rcases hbytes with ⟨-, hbytes⟩ | ⟨-, hbytes⟩
  · exact ⟨hbytes ▸ List.prefix_rfl, trivial⟩
  · exact ⟨hbytes ▸ (by decide : lineFile.bytes <+: (pairFile 97).bytes), trivial⟩

end Flashlight.Search
