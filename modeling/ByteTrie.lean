import ByteTrie.Branches.Shelf
import ByteTrie.Key.Index
import ByteTrie.Profile
import ByteTrie.Segment.Cuts
import ByteTrie.Session.Operations
import ByteTrie.Trie.Listing
import ByteTrie.Proofs.Interleaving
import ByteTrie.Proofs.Key.Comparison
import ByteTrie.Proofs.Key.Text
import ByteTrie.Proofs.Search.Bracketing
import ByteTrie.Proofs.Segment.Cuts
import ByteTrie.Proofs.Session.Bounds
import ByteTrie.Proofs.Session.Enumeration
import ByteTrie.Proofs.Session.Legible
import ByteTrie.Proofs.Session.Overwrites
import ByteTrie.Proofs.Session.Publication
import ByteTrie.Proofs.Session.Severance
import ByteTrie.Proofs.Session.Termination
import ByteTrie.Proofs.Shelf.Walking
import ByteTrie.Proofs.Store.Fork
import ByteTrie.Proofs.Trie.Capacity
import ByteTrie.Proofs.Trie.Compression
import ByteTrie.Proofs.Trie.Increase
import ByteTrie.Proofs.Trie.Inventory
import ByteTrie.Proofs.Trie.Ownership
import ByteTrie.Proofs.Trie.Shape
