import LionFS.Data.Ballots

/-!
# Safe elections

Every move of a cluster keeps `Ballots.Safe`. A list that a majority has confirmed
under the leader that wrote its last entry is then committed for ever: every later
leader starts from it (`Safe.committed_record`), and of two committed lists one
begins the other (`Safe.comparable`).
-/
namespace LionFS
open List Option Nat
open Function (update_self update_of_ne update forall_update_iff)
namespace Ballots
variable {α : Type} {term : α → Nat} {size : Nat} {ballots : Ballots α} {next : Ballots α}
  {place member : Nat}
section
variable (safe : ballots.Safe term size)
include safe
section
variable (grows : ballots.Grows next)
include grows

/-- What was confirmed and may be chosen was held before. -/
theorem Safe.held_grows {spot : Nat} (own : next.Own term place spot)
    (open' : next.Choosable size place spot) (confirmed : spot < ballots.acked member place) :
    (next.record place).take (spot + 1) <+: ballots.log member := by
  have there := confirmed.trans_le (safe.within member place)
  rw [grows.take_record there]
  exact safe.held (grows.own_of_lt own there) confirmed (grows.choosable open')

/-- What a leader had written and may still be chosen is in the logs of later leaders. -/
theorem Safe.kept_grows {later winner spot : Nat} (less : place < later)
    (won : ballots.leader later = some winner) (own : next.Own term place spot)
    (open' : next.Choosable size place spot) (there : spot < (ballots.record place).length) :
    (next.record place).take (spot + 1) <+: next.record later := by
  rw [grows.take_record there]
  exact (safe.kept less won (grows.own_of_lt own there) (grows.choosable open')).trans
    (grows.record later)

/-- What a voter had confirmed and may still be chosen its candidate held. -/
theorem Safe.stood_grows {later cand spot : Nat} (for' : ballots.vote member later = some cand)
    (less : place < later) (own : next.Own term place spot)
    (open' : next.Choosable size place spot) (confirmed : spot < ballots.acked member place) :
    (next.record place).take (spot + 1) <+: next.standing cand later := by
  have there := confirmed.trans_le (safe.within member place)
  rw [grows.take_record there, grows.standing (safe.voted for').2]
  exact safe.stood for' less (grows.own_of_lt own there) confirmed (grows.choosable open')

/-- What may be chosen in a term before a later election is what a voter of that election has
confirmed. -/
theorem Safe.voter {later winner spot : Nat} (less : place < later)
    (many : Majority size fun member => ballots.vote member later = some winner)
    (open' : next.Choosable size place spot) :
    ∃ member, ballots.vote member later = some winner ∧ spot < ballots.acked member place := by
  obtain ⟨member, for', either⟩ := many.meet (grows.choosable open')
  have passed := (safe.voted for').1
  exact ⟨member, for', either.resolve_right (by omega)⟩

end

/-- A leader has reached its term. -/
theorem Safe.led {winner : Nat} (won : ballots.leader place = some winner) :
    place ≤ ballots.current winner := by
  obtain ⟨member, for', -⟩ := (safe.majority won).meet (safe.majority won)
  exact (safe.voted for').2

/-- Terms, votes and candidacies may change when each new vote is one in a term that both sides
have reached, for a candidate that stands with all that the voter held. -/
theorem Safe.poll {current : Nat → Nat} {vote : Nat → Nat → Option Nat}
    {standing : Nat → Nat → List α} (next_eq : next =
      { ballots with current := current, vote := vote, standing := standing })
    (grows : ballots.Grows next)
    (cast : ∀ {member place cand}, vote member place = some cand →
      ballots.vote member place = some cand ∨
        (place ≤ current member ∧ place ≤ current cand ∧ 0 < place ∧
          ∀ {earlier spot}, next.Own term earlier spot →
            next.Choosable size earlier spot →
            (ballots.record earlier).take (spot + 1) <+: ballots.log member →
            (ballots.record earlier).take (spot + 1) <+: standing cand place))
    (moved : ∀ {winner}, ballots.leader (current winner) = some winner →
      current winner = ballots.current winner)
    (stands : ∀ cand place, ballots.Recorded term (standing cand place)) :
    next.Safe term size := by
  subst next_eq
  exact { safe with
    majority := fun won => (safe.majority won).mono fun _ for' => grows.vote for'
    voted := fun for' => by
      cases cast for' with
      | inl old => exact ⟨(safe.voted old).1.trans (grows.current _),
          (safe.voted old).2.trans (grows.current _)⟩
      | inr new => exact ⟨new.1, new.2.1⟩
    begun := fun for' => by
      cases cast for' with
      | inl old => exact safe.begun old
      | inr new => exact new.2.2.1
    office := fun {winner} leads => by
      have same := moved leads
      simp only [same] at leads ⊢
      exact safe.office leads
    logs := fun other => (safe.logs other).grows grows
    records := fun other => (safe.records other).grows grows
    stands := fun other at' => (stands other at').grows grows
    bounded := fun mem => (safe.bounded mem).trans (grows.current _)
    reached := fun more => (safe.reached more).trans (grows.current _)
    held := fun own confirmed open' => safe.held_grows grows own open' confirmed
    kept := fun less won own open' => safe.kept_grows grows less won own open' own.lt
    stood := fun for' less own confirmed open' => by
      cases cast for' with
      | inl old => exact safe.stood_grows grows old less own open' confirmed
      | inr new => exact new.2.2.2 own open' (safe.held_grows grows own open' confirmed) }

/-- No leader is in office in a term that it reaches only now. -/
theorem Safe.office_stays (later : ballots.current member < place) {winner : Nat}
    (leads : ballots.leader (update ballots.current member place winner) = some winner) :
    update ballots.current member place winner = ballots.current winner := by
  have reached := safe.led leads
  by_cases same : winner = member
  · subst same
    rw [update_self] at reached
    omega
  · exact update_of_ne same _ _

/-- A later term is safe. -/
theorem Safe.adopt (later : ballots.current member < place) :
    (ballots.adopt member place).Safe term size :=
  safe.poll rfl (grows_adopt later.le) Or.inl (safe.office_stays later) safe.stands

/-- Standing is safe. -/
theorem Safe.stand (member : Nat) : (ballots.stand member).Safe term size := by
  refine safe.poll rfl (grows_stand safe member) (fun {other place cand} for' => ?_)
    (safe.office_stays (lt_succ_self _)) fun cand place => ?_
  · by_cases here : other = member ∧ place = ballots.current member + 1
    · obtain ⟨rfl, rfl⟩ := here
      have self : other = cand := by simpa using for'
      subst self
      refine Or.inr ⟨?_, ?_, succ_pos _, fun _ _ held => ?_⟩
      · rw [update_self]
      · rw [update_self]
      · rwa [set_self]
    · exact Or.inl ((set_of_ne (not_and_or.mp here)).symm.trans for')
  · by_cases here : cand = member ∧ place = ballots.current member + 1
    · obtain ⟨rfl, rfl⟩ := here
      rw [set_self]
      exact safe.logs cand
    · rw [set_of_ne (not_and_or.mp here)]
      exact safe.stands cand place

/-- A vote for a candidate that is up to date is safe. -/
theorem Safe.grant {cand : Nat} (free : ballots.vote member (ballots.current member) = none ∨
      ballots.vote member (ballots.current member) = some cand)
    (first : 0 < ballots.current member) (stands : ballots.current member ≤ ballots.current cand)
    (upToDate : UpToDate term (ballots.standing cand (ballots.current member))
      (ballots.log member)) : (ballots.grant member cand).Safe term size := by
  have grows := grows_grant free
  refine safe.poll rfl grows (fun {other place chosen} for' => ?_) (fun _ => rfl) safe.stands
  by_cases here : other = member ∧ place = ballots.current member
  · obtain ⟨rfl, rfl⟩ := here
    have self : cand = chosen := by simpa using for'
    subst self
    refine Or.inr ⟨le_refl _, stands, first, fun own open' holds => ?_⟩
    exact safe.carries (safe.stands _ _) (safe.logs other) (grows.own_of_lt own own.lt)
      (grows.choosable open') holds upToDate
  · exact Or.inl ((set_of_ne (not_and_or.mp here)).symm.trans for')

/-- A leader is entitled to the log it has in its term: it has won it before, or wins it now with
the log with which it stood. -/
def Entitled (size : Nat) (ballots : Ballots α) (place leads : Nat) (record : List α) : Prop :=
  ballots.leader place = some leads ∨
    (Majority size fun member => ballots.vote member place = some leads) ∧
      ballots.standing leads place = record

variable {leads acked : Nat} {record log : List α}
  (turns : next = ballots.turn member leads record log acked) (grows : ballots.Grows next)
  (entitled : ballots.Entitled size (ballots.current member) leads record)
  (begins : ballots.record (ballots.current member) <+: record)
include turns grows entitled begins

/-- A leader entitled to its log holds what may be chosen of earlier terms. -/
theorem Safe.starts {spot : Nat} (less : place < ballots.current member)
    (own : next.Own term place spot) (open' : next.Choosable size place spot) :
    (next.record place).take (spot + 1) <+: record := by
  have there := own.lt
  cases entitled with
  | inl won =>
    simp only [turns, Ballots.turn, update_of_ne less.ne] at there
    rw [grows.take_record there]
    exact (safe.kept less won (grows.own_of_lt own there) (grows.choosable open')).trans begins
  | inr elected =>
    obtain ⟨voter, for', confirmed⟩ := safe.voter grows less elected.1 open'
    have carried := safe.stood_grows grows for' less own open' confirmed
    rwa [grows.standing (safe.voted for').2, elected.2] at carried

/-- A turn is safe when its leader is entitled to its log, what the member confirms is the
leader's, and what the member holds and may be chosen it keeps. -/
theorem Safe.turn (fits : acked ≤ record.length)
    (office : leads = member → log = record ∧ acked = log.length)
    (steady : leads ≠ member → ballots.leader (ballots.current member) = some leads ∧
      record = ballots.record (ballots.current member))
    (logged : next.Recorded term log) (recorded : next.Recorded term record)
    (bounded : ∀ entry ∈ log, term entry ≤ ballots.current member)
    (capped : ∀ entry ∈ record, term entry ≤ ballots.current member)
    (confirmed : ∀ {spot}, next.Own term (ballots.current member) spot →
      next.Choosable size (ballots.current member) spot → spot < acked →
      record.take (spot + 1) <+: log)
    (keeps : ∀ start, start <+: ballots.log member → start <+: record → start <+: log) :
    next.Safe term size := by
  subst turns
  have acks : ∀ {other place}, ¬ (other = member ∧ place = ballots.current member) →
      (ballots.turn member leads record log acked).acked other place =
        ballots.acked other place := fun apart => set_of_ne (not_and_or.mp apart)
  exact { safe with
    majority := fun {place winner} won => by
      by_cases here : place = ballots.current member
      · subst here
        have same : leads = winner := by simpa [Ballots.turn] using won
        subst same
        exact entitled.elim safe.majority And.left
      · exact safe.majority (by simpa [Ballots.turn, here] using won)
    unled := fun {place} vacant => by
      have apart : place ≠ ballots.current member := fun here => by
        simp [Ballots.turn, here] at vacant
      simp only [Ballots.turn, update_of_ne apart] at vacant ⊢
      exact safe.unled vacant
    office := fun {winner} won => by
      by_cases same : winner = member
      · subst same
        have leading : leads = winner := by simpa [Ballots.turn] using won
        simpa [Ballots.turn] using office leading
      · have before : ballots.leader (ballots.current winner) = some winner ∧
            update ballots.record (ballots.current member) record (ballots.current winner) =
              ballots.record (ballots.current winner) := by
          by_cases here : ballots.current winner = ballots.current member
          · have leading : leads = winner := by simpa [Ballots.turn, here] using won
            subst leading
            rw [here, update_self]
            exact steady same
          · exact ⟨by simpa [Ballots.turn, here] using won, update_of_ne here _ _⟩
        obtain ⟨holds, confirms⟩ := safe.office before.1
        refine ⟨?_, (acks fun both => same both.1).trans ?_⟩
        · simpa [Ballots.turn, same, before.2] using holds
        · simpa [Ballots.turn, same] using confirms
    logs := (forall_update_iff _ fun _ list => Recorded term _ list).mpr
      ⟨logged, fun other _ => (safe.logs other).grows grows⟩
    records := (forall_update_iff _ fun _ list => Recorded term _ list).mpr
      ⟨recorded, fun place _ => (safe.records place).grows grows⟩
    stands := fun other place => (safe.stands other place).grows grows
    bounded := fun {other entry} => (forall_update_iff _ fun other list =>
      entry ∈ list → term entry ≤ ballots.current other).mpr
        ⟨bounded entry, fun _ _ => safe.bounded⟩ other
    capped := fun {place entry} => (forall_update_iff _ fun place list =>
      entry ∈ list → term entry ≤ place).mpr ⟨capped entry, fun _ _ => safe.capped⟩ place
    within := fun other place => by
      by_cases here : other = member ∧ place = ballots.current member
      · obtain ⟨rfl, rfl⟩ := here
        simpa [Ballots.turn] using fits
      · rw [acks here]
        exact (safe.within other place).trans (grows.record place).length_le
    reached := fun {other place} more => by
      by_cases here : other = member ∧ place = ballots.current member
      · exact (here.1 ▸ here.2).le
      · rw [acks here] at more
        exact safe.reached more
    held := fun {other place spot} own less open' => by
      by_cases here : other = member ∧ place = ballots.current member
      · obtain ⟨rfl, rfl⟩ := here
        have less : spot < acked := by simpa [Ballots.turn] using less
        simpa [Ballots.turn] using confirmed own open' less
      · rw [acks here] at less
        have holds := safe.held_grows grows own open' less
        by_cases same : other = member
        · subst same
          have earlier := safe.reached (Nat.zero_lt_of_lt less)
          have below : place < ballots.current other :=
            lt_of_le_of_ne earlier fun now => here ⟨rfl, now⟩
          have kept := keeps _ holds (safe.starts rfl grows entitled begins below own open')
          simpa [Ballots.turn] using kept
        · simpa [Ballots.turn, same] using holds
    kept := fun {place later winner spot} less won own open' => by
      by_cases here : later = ballots.current member
      · subst here
        simpa [Ballots.turn] using safe.starts rfl grows entitled begins less own open'
      · have old : ballots.leader later = some winner := by simpa [Ballots.turn, here] using won
        obtain ⟨voter, -, confirmed⟩ := safe.voter grows less (safe.majority old) open'
        exact safe.kept_grows grows less old own open'
          (confirmed.trans_le (safe.within voter place))
    stood := fun {other place later cand spot} for' less own confirmed open' => by
      have apart : ¬ (other = member ∧ place = ballots.current member) := by
        rintro ⟨rfl, rfl⟩
        have passed := (safe.voted for').1
        omega
      rw [acks apart] at confirmed
      exact safe.stood_grows grows for' less own open' confirmed }

end

variable {winner : Nat}

/-- A leader with a majority of votes is safe. -/
theorem Safe.win (safe : ballots.Safe term size)
    (vacant : ballots.leader (ballots.current winner) = none) (many : Majority size fun member =>
      ballots.vote member (ballots.current winner) = some winner)
    (stands : ballots.standing winner (ballots.current winner) = ballots.log winner) :
    (ballots.win winner).Safe term size := by
  have grows := grows_win safe vacant
  rw [win_eq] at grows ⊢
  have recorded := (safe.logs winner).grows grows
  refine safe.turn rfl grows (Or.inr ⟨many, stands⟩) ?_ le_rfl (fun _ => ⟨rfl, rfl⟩)
    (absurd rfl) recorded recorded (fun _ => safe.bounded)
    (fun _ => safe.bounded) (fun _ _ _ => List.take_prefix _ _) fun _ begins _ => begins
  rw [safe.unled vacant]
  exact nil_prefix

section
variable (safe : ballots.Safe term size) {entry : α}
  (leads : ballots.leader (ballots.current winner) = some winner)
  (mine : term entry = ballots.current winner)
include safe leads mine

/-- A leader's longer log consists of what leaders wrote. -/
theorem Safe.recorded_extend :
    (ballots.extend winner entry).Recorded term (ballots.log winner ++ [entry]) := by
  have grows : ballots.Grows (ballots.extend winner entry) := grows_extend safe leads
  have old := (safe.logs winner).grows grows
  have split : ∀ {spot held}, (ballots.log winner ++ [entry])[spot]? = some held →
      (ballots.log winner)[spot]? = some held ∨
        spot = (ballots.log winner).length ∧ held = entry := by
    intro spot held found
    by_cases before : spot < (ballots.log winner).length
    · rw [getElem?_append_left before] at found
      exact Or.inl found
    · have mem := (List.getElem?_eq_some_iff.mp found).1
      rw [length_append, length_singleton] at mem
      have here : spot = (ballots.log winner).length := by omega
      subst here
      rw [getElem?_concat_length] at found
      exact Or.inr ⟨rfl, (some.inj found).symm⟩
  exact {
    sorted := by
      refine pairwise_append.mpr ⟨old.sorted, pairwise_singleton _ _, ?_⟩
      intro earlier mem last isLast
      rw [mem_singleton.mp isLast, mine]
      exact safe.bounded mem
    led := fun spot held found => by
      cases split found with
      | inl before => exact old.led spot held before
      | inr last =>
        rw [last.2, mine]
        exact isSome_iff_exists.mpr ⟨winner, leads⟩
    taken := fun spot held found => by
      cases split found with
      | inl before =>
        have mem := (List.getElem?_eq_some_iff.mp before).1
        rw [take_append_of_le_length mem]
        exact old.taken spot held before
      | inr last =>
        rw [last.2, mine]
        simp [Ballots.extend] }

/-- A leader may extend its log. -/
theorem Safe.extend : (ballots.extend winner entry).Safe term size := by
  have grows : ballots.Grows (ballots.extend winner entry) := grows_extend safe leads
  have recorded := safe.recorded_extend leads mine
  have bounded : ∀ held ∈ ballots.log winner ++ [entry], term held ≤ ballots.current winner := by
    exact forall_mem_append.mpr ⟨fun _ => safe.bounded, forall_mem_singleton.mpr mine.le⟩
  rw [extend_eq leads] at grows recorded ⊢
  refine safe.turn rfl grows (Or.inl leads) ?_ le_rfl (fun _ => ⟨rfl, rfl⟩)
    (absurd rfl) recorded recorded bounded bounded
    (fun _ _ _ => List.take_prefix _ _) fun _ _ begins => begins
  rw [← (safe.office leads).1]
  exact prefix_append _ _

end

variable {list : List α}

/-- Taking over a leader's log is safe when what the member shares with the leader stays and what
it confirms is the leader's. -/
theorem Safe.accept (safe : ballots.Safe term size) {leads count : Nat}
    (won : ballots.leader (ballots.current member) = some leads) (apart : leads ≠ member)
    (either : list = ballots.log member ∨ list <+: ballots.record (ballots.current member))
    (keeps : ∀ start, start <+: ballots.log member →
      start <+: ballots.record (ballots.current member) → start <+: list)
    (long : count ≤ list.length)
    (counted : list.take count <+: ballots.record (ballots.current member)) :
    (ballots.accept member list count).Safe term size := by
  have grows : ballots.Grows (ballots.accept member list count) := grows_accept won
  rw [accept_eq won] at grows ⊢
  have fits := counted.length_le
  rw [length_take, min_eq_left long] at fits
  refine safe.turn rfl grows (Or.inl won) (prefix_refl _) (Nat.max_le.mpr ⟨safe.within _ _, fits⟩)
    (fun same => absurd same apart) (fun _ => ⟨won, rfl⟩) ?_ ((safe.records _).grows grows) ?_
    (fun _ => safe.capped) ?_ keeps
  · cases either with
    | inl old => exact old ▸ (safe.logs member).grows grows
    | inr new => exact ((safe.records _).of_initial new).grows grows
  · intro entry mem
    cases either with
    | inl old => exact safe.bounded (old ▸ mem)
    | inr new => exact safe.capped (new.subset mem)
  · intro spot own open' less
    by_cases old : spot < ballots.acked member (ballots.current member)
    · have holds := safe.held_grows grows own open' old
      simp only [Ballots.turn, update_self] at holds
      exact keeps _ holds (List.take_prefix _ _)
    · refine (prefix_of_prefix_length_le (List.take_prefix _ _) counted ?_).trans
        (List.take_prefix _ _)
      rw [length_take, length_take]
      omega

/-- A list begins what a majority has confirmed, in a term or an earlier one, under the leader
that wrote its end. -/
def Committed (term : α → Nat) (size : Nat) (ballots : Ballots α) (place : Nat) (list : List α) :
    Prop :=
  list = [] ∨ ∃ earlier position, earlier ≤ place ∧ ballots.Own term earlier position ∧
    ballots.Chosen size earlier position ∧
    list <+: (ballots.record earlier).take (position + 1)

/-- What is committed stays committed. -/
theorem Committed.grows (grows : ballots.Grows next)
    (committed : ballots.Committed term size place list) : next.Committed term size place list := by
  cases committed with
  | inl empty => exact Or.inl empty
  | inr some =>
    obtain ⟨earlier, spot, below, own, chosen, begins⟩ := some
    refine Or.inr ⟨earlier, spot, below, grows.own own, grows.chosen chosen, ?_⟩
    rwa [grows.take_record own.lt]

/-- It is committed in later terms too. -/
theorem Committed.later {later : Nat} (committed : ballots.Committed term size place list)
    (below : place ≤ later) : ballots.Committed term size later list := by
  cases committed with
  | inl empty => exact Or.inl empty
  | inr some =>
    obtain ⟨earlier, spot, less, rest⟩ := some
    exact Or.inr ⟨earlier, spot, less.trans below, rest⟩

/-- Later leaders have what is committed. -/
theorem Safe.committed_record (safe : ballots.Safe term size) {later : Nat}
    (committed : ballots.Committed term size place list) (below : place ≤ later)
    (won : ballots.leader later = some winner) : list <+: ballots.record later := by
  cases committed with
  | inl empty =>
    subst empty
    exact nil_prefix
  | inr some =>
    obtain ⟨earlier, spot, less, own, chosen, begins⟩ := some
    by_cases same : earlier = later
    · subst same
      exact begins.trans (List.take_prefix _ _)
    · exact begins.trans (safe.kept (by omega) won own chosen.choosable)

/-- Of two committed lists one begins the other. -/
theorem Safe.comparable (safe : ballots.Safe term size) {later : Nat} {other : List α}
    (one : ballots.Committed term size place list) (two : ballots.Committed term size later other) :
    list <+: other ∨ other <+: list := by
  cases one with
  | inl empty =>
    subst empty
    exact Or.inl nil_prefix
  | inr some =>
    obtain ⟨first, spot, -, own, chosen, begins⟩ := some
    cases two with
    | inl empty =>
      subst empty
      exact Or.inr nil_prefix
    | inr some =>
      obtain ⟨second, at', -, mine, picked, starts⟩ := some
      have leader : ∀ {place spot}, ballots.Own term place spot →
          ∃ winner, ballots.leader place = some winner := by
        rintro place spot ⟨entry, found, here⟩
        have led := (safe.records place).led spot entry found
        rw [here] at led
        exact isSome_iff_exists.mp led
      have within : ∀ {place later spot}, ballots.Own term place spot →
          ballots.Chosen size place spot → place ≤ later →
          (∃ winner, ballots.leader later = some winner) →
          (ballots.record place).take (spot + 1) <+: ballots.record later := by
        rintro place later spot own chosen below ⟨winner, won⟩
        exact safe.committed_record (Or.inr ⟨place, spot, le_refl _, own, chosen,
          prefix_refl _⟩) below won
      by_cases order : first ≤ second
      · exact prefix_or_prefix_of_prefix (begins.trans (within own chosen order (leader mine)))
          (starts.trans (List.take_prefix _ _))
      · exact prefix_or_prefix_of_prefix (begins.trans (List.take_prefix _ _))
          (starts.trans (within mine picked (by omega) (leader own)))

/-- The history before anything happens. -/
def start : Ballots α where
  current _ := 0
  log _ := []
  vote _ _ := none
  standing _ _ := []
  leader _ := none
  record _ := []
  acked _ _ := 0

/-- An empty log. -/
theorem recorded_nil : ballots.Recorded term [] where
  sorted := List.Pairwise.nil
  led _ _ found := by simp at found
  taken _ _ found := by simp at found

/-- The first history is safe. -/
theorem safe_start : (start : Ballots α).Safe term size where
  majority won := by cases won
  voted for' := by cases for'
  begun for' := by cases for'
  unled _ := rfl
  office won := by cases won
  logs _ := recorded_nil
  records _ := recorded_nil
  stands _ _ := recorded_nil
  bounded mem := by cases mem
  capped mem := by cases mem
  within _ _ := le_refl _
  reached more := absurd more (lt_irrefl _)
  held own := by
    obtain ⟨entry, found, -⟩ := own
    simp [start] at found
  kept _ won := by cases won
  stood for' := by cases for'

end Ballots
end LionFS
