import ContentFilter.Main
import ContentFilter.Proofs.Entries
import ContentFilter.Proofs.Iterated
import ContentFilter.Proofs.Lifetime
import ContentFilter.Proofs.Delays
import ContentFilter.Proofs.Journaled
import ContentFilter.Proofs.Refusals
import ContentFilter.Proofs.Announcements
import ContentFilter.Proofs.Lines
import ContentFilter.Proofs.Joined
import ContentFilter.Proofs.Unanswered
import ContentFilter.Proofs.Commuting
import ContentFilter.Proofs.Restored
import ContentFilter.Proofs.Countdown
import ContentFilter.Proofs.Shuffled
import ContentFilter.Proofs.Orders
import ContentFilter.Proofs.Streams
import ContentFilter.Proofs.Confirmations
import ContentFilter.Proofs.Frames
import ContentFilter.Proofs.Unfailing
import ContentFilter.Proofs.Classified
import ContentFilter.Proofs.Terminating
import ContentFilter.Proofs.Durable
import ContentFilter.Proofs.Readers
