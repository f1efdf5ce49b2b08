import TraceDecay.SourceEdit.Atomicity

/-!
# SourceEdit.Finality

When the receipt under a key is final. Recovery settles the journal an earlier request left without
a look at the receipts, and a request that is refused before recovery stores its receipt without a
look at the journal. So a terminal receipt is final only in sessions that never meet the two: where
no cancelled or timed-out receipt stands beside a journal with its key, where a request with the key
of the journal is admitted, and where every plan changes a file.
-/

namespace TraceDecay.SourceEdit

open Resumption

variable {δ : Type} {host : Host δ} {s t u : Store δ}

/-! ## One step -/

/-- Terminal receipts keep their outcome. -/
def Keeps (s t : Store δ) : Prop :=
  ∀ key r, s.records.receipts key = some r → r.Terminal →
    ∃ r', t.records.receipts key = some r' ∧ r'.termination = r.termination

/-- A file is written on behalf of a key only while the key has no terminal receipt. -/
def WritesOpen (s t : Store δ) : Prop :=
  t.files ≠ s.files → ∃ j, s.records.journal = some j ∧
    ∀ r, s.records.receipts j.key = some r → ¬ r.Terminal

def Final (s t : Store δ) : Prop := Keeps s t ∧ WritesOpen s t

theorem Keeps.of_receipts_eq (h : t.records.receipts = s.records.receipts) : Keeps s t :=
  fun _ r hr _ => ⟨r, by rw [h, hr], rfl⟩

theorem Final.refl (s : Store δ) : Final s s := ⟨.of_receipts_eq rfl, fun hne => absurd rfl hne⟩

theorem Keeps.trans (h : Keeps s t) (h' : Keeps t u) : Keeps s u := by
  intro key r hr ht
  obtain ⟨r', hr', hsame⟩ := h key r hr ht
  obtain ⟨r'', hr'', hs'⟩ := h' key r' hr' fun hunknown => ht (hsame.symm.trans hunknown)
  exact ⟨r'', hr'', hs'.trans hsame⟩

/-- No other program writes, and the session is careful. -/
def carefulMode : Mode := ⟨fun _ => True, True, True, True⟩

theorem calm_carefulMode {j : Journal δ} : j.Calm carefulMode := fun _ _ => trivial

theorem Verdict.termination_eq {j : Journal δ} {r r' : DurableResult δ}
    (hchanges : Changes j.recoveryFiles) (h : Verdict j r s) (h' : Verdict j r' s) :
    r'.termination = r.termination := by
  obtain ⟨f, hf, hne⟩ := hchanges
  obtain ⟨-, ⟨hp, ht⟩ | ⟨hpre, ht⟩⟩ := h
  · obtain ⟨-, ⟨-, ht'⟩ | ⟨hpe', -⟩⟩ := h'
    · rw [ht, ht']
    · exact absurd ((hpe' f hf).symm.trans (hp f hf)) hne
  · obtain ⟨-, ⟨hp', -⟩ | ⟨-, ht'⟩⟩ := h'
    · exact absurd ((hpre f hf).symm.trans (hp' f hf)) hne
    · rw [ht, ht']

/-- What keeps a request from meeting a receipt and a journal that contradict each other. -/
structure Request.Careful (request : Request δ) (s : Store δ) : Prop where
  clear : ∀ j r, s.records.journal = some j → s.records.receipts j.key = some r → ¬ r.Interrupted
  admitted : ∀ j, s.records.journal = some j → j.key = request.key →
    s.records.receipts j.key = none → request.Admitted
  changing : request.Changing

theorem Request.Careful.fits {r : Request δ} (h : r.Careful s) : r.Fits carefulMode s where
  clear _ := h.clear
  admitted _ hfresh j hj hkey := h.admitted j hj hkey (hkey ▸ hfresh)
  changing _ := h.changing
  loose _ := trivial

theorem invariant_start (f : String → Option Content) :
    Invariant carefulMode host (start f : Here δ).state where
  records := recordsOk_empty
  accounts j hj := by cases hj
  closed _ j _ hj := by cases hj
  changing _ := ⟨fun hj => (by cases hj), fun hrec => (by cases hrec)⟩

variable (hinv : Invariant carefulMode host s)
include hinv

theorem writesOpen_publish {path : String} {e i : Option Content}
    (hmay : MayPublish carefulMode s path e i) :
    ∃ j, s.records.journal = some j ∧ ∀ r, s.records.receipts j.key = some r → ¬ r.Terminal := by
  cases hmay with
  | forward hj _ _ _ _ _ hfresh =>
    exact ⟨_, hj, fun r hr => by cases hr.symm.trans hfresh⟩
  | back hj _ _ _ _ _ hopen =>
    refine ⟨_, hj, fun r hr ht => ?_⟩
    rcases hopen with hfresh | hopen
    · cases hr.symm.trans hfresh
    · obtain ⟨hpre, hp⟩ := hopen calm_carefulMode
      rcases hinv.closed trivial _ r hj calm_carefulMode hr ht with
        ⟨-, ⟨hall, -⟩ | ⟨hall, -⟩⟩ | ⟨-, hall⟩
      · exact hp hall
      · exact hpre hall
      · exact hpre hall

variable [DecidableEq δ]

theorem keeps_persistReceipt {r : DurableResult δ}
    (hmay : MayReceipt carefulMode s r) : Keeps s (perform (.persistReceipt r) s).2 := by
  intro key r0 hr0 ht
  change ∃ r', Function.update s.records.receipts r.key (some r) key = some r' ∧ _
  by_cases hkey : key = r.key
  swap
  · exact ⟨r0, by rw [Function.update_of_ne hkey, hr0], rfl⟩
  subst hkey
  rw [Function.update_self]
  refine ⟨r, rfl, ?_⟩
  cases hmay with
  | refuse hfresh => cases hr0.symm.trans hfresh
  | interrupt _ hkey hfresh | unknown _ hkey hfresh => cases hr0.symm.trans (hkey ▸ hfresh)
  | settle hj hkey hverdict hguard =>
    rw [hkey] at hr0
    rcases hinv.closed trivial _ r0 hj calm_carefulMode hr0 ht with hv0 | ⟨hinterrupted, -⟩
    · exact hv0.termination_eq ((hinv.changing trivial).journal hj) (hverdict calm_carefulMode)
    · exact absurd hinterrupted (hguard trivial r0 hr0)

theorem final_perform {c : Call δ} (hmay : Allowed carefulMode host s c) :
    Keeps s (perform c s).2 ∧ WritesOpen s (perform c s).2 := by
  have hsame : ∀ {t : Store δ}, t.files = s.files → WritesOpen s t := fun h hne => absurd h hne
  cases c with
  | publish path expected intended =>
    refine ⟨.of_receipts_eq ?_, fun _ => writesOpen_publish hinv hmay⟩
    rcases perform_publish path expected intended s with ⟨-, heq⟩ | ⟨-, e, heq⟩
    · rw [heq]
    · rw [heq]
  | persistReceipt r => exact ⟨keeps_persistReceipt hinv hmay, hsame rfl⟩
  -- no other call touches a file or a receipt
  | _ => exact ⟨.of_receipts_eq rfl, hsame rfl⟩

/-! ## Whole sessions -/

omit hinv

/-- The stores a run goes through, one for each turn. -/
def visits {α : Type} : Turns → Config (interface δ) EditError (Store δ) α → List (Store δ)
  | [], _ => []
  | turn :: turns, c =>
    let c' := advance (device δ) ForeignWrite.apply c turn
    c'.moment.state :: visits turns c'

def Session.visits (host : Host δ) : Session δ → Here δ → List (Store δ)
  | [], _ => []
  | entry :: session, m =>
    SourceEdit.visits entry.2 ⟨entry.1.prog host, m⟩ ++
      visits host session (runRequest host m entry)

/-- Every request is careful where it is made, and no other program writes. -/
def Session.Careful (host : Host δ) : Session δ → Here δ → Prop
  | [], _ => True
  | entry :: session, m => entry.1.Careful m.state ∧ (∀ w, .other w ∉ entry.2) ∧
      Careful host session (runRequest host m entry)

/-- From a safe program on, each turn of an undisturbed run is final; `later` is what comes after
the run. -/
theorem chain_visits {α : Type} {hfree : host.CollisionFree}
    {post : Except EditError α → Here δ → Prop} {later : List (Store δ)} {turns : Turns}
    (ha : ∀ w, .other w ∉ turns) :
    ∀ {c : Config (interface δ) EditError (Store δ) α}, Invariant carefulMode host c.moment.state →
      Safe (discipline carefulMode hfree) post c.prog c.moment →
      ((run (device δ) ForeignWrite.apply turns c).moment.state :: later).IsChain Final →
      (c.moment.state :: (visits turns c ++ later)).IsChain Final := by
  induction turns with
  | nil => exact fun _ _ h => h
  | cons turn turns ih =>
    intro c hinv hs hl
    have hown : ∀ w, turn ≠ .other w := fun w h => ha w (h ▸ List.mem_cons_self)
    obtain ⟨hn, hpath⟩ := hs.advance ForeignWrite.apply turn hinv
      (fun _ => trivial) fun w h => absurd h (hown w)
    have hr := ih (fun w h => ha w (List.mem_cons_of_mem _ h)) (hpath.inv hinv) hn hl
    refine .cons_cons ?_ hr
    rcases hs.own_step ForeignWrite.apply hinv turn hown with hsame | ⟨q, hmay, hpost⟩
    · rw [hsame]; exact .refl _
    · rw [hpost]; exact final_perform hinv hmay

theorem Session.Careful.chain (hfree : host.CollisionFree) {session : Session δ} :
    ∀ {m : Here δ}, Invariant carefulMode host m.state → session.Careful host m →
      (m.state :: session.visits host m).IsChain Final := by
  induction session with
  | nil => exact fun _ _ => .singleton _
  | cons entry session ih =>
    rintro m hinv ⟨hc, ha, hr⟩
    have hwithin : entry.2.Within carefulMode := ⟨fun _ _ _ => trivial, fun w hw => absurd hw (ha w)⟩
    have hpath := path_runRequest hfree hinv hc.fits hwithin
    exact chain_visits ha hinv (Request.runs hfree hc.fits m (shows_view m))
      (ih (hpath.inv hinv) hr)

/-- In a careful session a terminal receipt is final: from any store of the run to any later one its
outcome stays, and no step writes a file on behalf of its key. -/
theorem terminal_receipts_final (hfree : host.CollisionFree) (files : String → Option Content)
    (session : Session δ) (hcareful : session.Careful host (start files)) :
    let run := (start files).state :: session.visits host (start files)
    run.Pairwise Keeps ∧ run.IsChain WritesOpen := by
  have hc := hcareful.chain hfree (invariant_start files)
  have ht : Trans (Keeps (δ := δ)) Keeps Keeps := ⟨Keeps.trans⟩
  exact ⟨(hc.imp fun _ _ h => h.1).pairwise, hc.imp fun _ _ h => h.2⟩

/-- The rename is cut off when one of its files is written, and made again. -/
def retriedRename : Session Digest :=
  [(.execute (renameRequest "k") renameAnswers, steps 9),
    (.execute (renameRequest "k") renameAnswers, steps 20)]

theorem terminal_receipts_final_retry : retriedRename.Careful termHost (start renameFiles0) ∧
      ((start renameFiles0).state ::
        retriedRename.visits termHost (start renameFiles0)).Pairwise Keeps := by
  have hc : renameAnswers.Changing := by
    rintro outcome plan hp -
    cases hp; exact ⟨_, List.mem_cons_self, by decide⟩
  have ha : ∀ n w, Turn.other w ∉ steps n := by intro n w hw; cases List.eq_of_mem_replicate hw
  have hadmitted : renameAnswers.Admitted (renameRequest "k") :=
    ⟨rfl, rfl, fun a h => by cases h; decide⟩
  have hjournal : (runRequest termHost (start renameFiles0)
      (.execute (renameRequest "k") renameAnswers, steps 9)).state.records.journal =
        some renameJournal := by
    decide +kernel
  have hretry : (runRequest termHost (start renameFiles0)
      (.execute (renameRequest "k") renameAnswers, steps 9)).state.records.receipts "k" = none := by
    decide +kernel
  have hcareful : retriedRename.Careful termHost (start renameFiles0) := by
    refine ⟨⟨fun j _ hj => (by cases hj), fun j hj => (by cases hj), fun _ => hc⟩, ha 9,
      ⟨fun j r hj hr => ?_, fun _ _ _ _ => hadmitted, fun _ => hc⟩, ha 20, trivial⟩
    cases hjournal.symm.trans hj; cases hretry.symm.trans hr
  exact ⟨hcareful,
    (terminal_receipts_final termHost_collisionFree renameFiles0 retriedRename hcareful).1⟩

/-- The caller of the retry gives up before it is admitted. -/
def stoppedAnswers : ExecuteAnswers :=
  { renameAnswers with
    control := fun stage => if stage = .beforeAdmission then some .cancelled else none }

/-- The rename is cut off when one of its files is written; its retry is cancelled before admission
and stores that under the key. The next request, under another key, restores the file and replaces
the receipt. -/
theorem cancelled_receipt_replaced : let session : Session Digest :=
      [(.execute (renameRequest "k") renameAnswers, steps 9),
        (.execute (renameRequest "k") stoppedAnswers, steps 2)]
    let s := (runSession termHost session (start renameFiles0)).state
    let t := (runSession termHost
      (session ++ [(.execute (renameRequest "l") renameAnswers, steps 9)])
      (start renameFiles0)).state
    (s.records.receipts "k").map (·.termination) = some .cancelled ∧ s.files "a.rs" = some [2] ∧
      (t.records.receipts "k").map (·.termination) = some .failed ∧ t.files "a.rs" = some [1] := by
  decide +kernel

end TraceDecay.SourceEdit
